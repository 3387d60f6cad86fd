import FOrder.Rdtool.DetectorRuns

/-!
# `Rdtool.DetectorSystem` — whole runs of F-Order's detector

The races of a run are defined on its callbacks alone: which strand makes an access is what the serial machine says,
and an access counts for a grain when it has four bytes at least, one of them there. Only the accesses of 16 bytes
depend on the switches of the user (`SwitchedOn`); accesses of one or two bytes are in no grain. F-Order forgets
nothing, so any two accesses may race, however far apart.

`Tells` connects the callbacks to the log of `DetectorRuns`, as in `Futurerd.DetectorCallbacks`. What the log says is
then compared with the reports. If a grain is not reported, every two conflicting calls on it that were checked come
one after the other; and it is enough to check a call against the last write and the reads since then
(`related_of_since`), because coming one after the other is transitive.

- `no_race_missed`: with any futures, each grain with a race is reported.
- `reports_exact`: without futures, the grains reported are those with a race, and those that one strand both reads and
  writes.
-/

namespace FOrder.Rdtool

open Serial (State Event FutId Strand isDep)

/-! ## Races

The definitions that the theorems about whole runs are stated with: callbacks, strands, grains and paths. -/

/-- The strand that runs after the callbacks `cbs`. -/
def strandAfter (cbs : List Callback) : Option Strand :=
  (Serial.run rules Serial.init (cbs.filterMap Callback.toEvent)).map State.cur

/-- The switches of the user that are open: each event, each function exit, and each access but those of 16 bytes, sets
    them back. -/
def nextOpen (n : Int) : Callback → Int
  | .event _ => 0
  | .funcExit => 0
  | .access a => if a.memSize = 16 then n else 0
  | .enableChecking => n - 1
  | .disableChecking => n + 1
  | .disableInstrumentation => n

/-- Instrumentation has not been disabled, and as many calls switch the checks on as off since the counter was set
    back. -/
def SwitchedOn (cbs : List Callback) : Prop := cbs.foldl nextOpen 0 = 0 ∧ .disableInstrumentation ∉ cbs

/-- The access, after the callbacks `cbs`, is one to be seen on grain `g`. -/
def Counts (cbs : List Callback) (a : Access Unit) (g : Nat) : Prop :=
  grainSize ≤ a.memSize ∧ a.Touches g ∧ (a.memSize = 16 → SwitchedOn cbs)

/-- Strand `u` has made an access of kind `k` to grain `g`. -/
def MadeOn (cbs : List Callback) (g : Nat) (k : Bool) (u : Strand) : Prop :=
  ∃ pre a mid, cbs = pre ++ .access a :: mid ∧ Counts pre a g ∧ a.isRead = k ∧ strandAfter pre = some u

/-- An access to grain `g`, and an earlier one, whose kinds and strands are related by `rel`. -/
def PairOn (rel : Bool → Strand → Bool → Strand → Prop) (cbs : List Callback) (g : Nat) : Prop :=
  ∃ pre b post, cbs = pre ++ .access b :: post ∧ Counts pre b g ∧
    ∃ k u v, MadeOn pre g k u ∧ strandAfter pre = some v ∧ rel k u b.isRead v

/-- A **race** on grain `g`: two accesses of parallel strands, at least one of them a write. -/
def RaceOn (d : Dag Serial.EdgeKind) : List Callback → Nat → Prop :=
  PairOn fun k u k' v => (k = false ∨ k' = false) ∧ d.Parallel isDep u v

/-- One strand reads and writes grain `g`. -/
def SelfOn : List Callback → Nat → Prop := PairOn fun k u k' v => u = v ∧ k ≠ k'

section Callbacks

variable {cbs : List Callback} {cb : Callback} {g : Nat} {k : Bool} {u : Strand}
  {rel : Bool → Strand → Bool → Strand → Prop}

/-- A callback that is no event starts no strand. -/
theorem strandAfter_quiet (hcb : cb.toEvent = none) : strandAfter (cbs ++ [cb]) = strandAfter cbs := by
  simp [strandAfter, hcb]

/-- **The step** for the accesses that count. -/
theorem madeOn_concat : MadeOn (cbs ++ [cb]) g k u ↔ MadeOn cbs g k u ∨
    ∃ a, cb = .access a ∧ Counts cbs a g ∧ a.isRead = k ∧ strandAfter cbs = some u := by
  constructor
  · rintro ⟨pre, a, mid, heq, hmade⟩
    rcases concat_eq_append_cons.mp heq with ⟨rfl, rfl, -⟩ | ⟨mid', rfl, -⟩
    · exact Or.inr ⟨a, rfl, hmade⟩
    · exact Or.inl ⟨pre, a, mid', rfl, hmade⟩
  · rintro (⟨pre, a, mid, rfl, hmade⟩ | ⟨a, rfl, hmade⟩)
    · exact ⟨pre, a, mid ++ [cb], by simp, hmade⟩
    · exact ⟨cbs, a, [], rfl, hmade⟩

/-- **The step** for pairs of accesses that count: the new pairs have the new access as the later one. -/
theorem pairOn_concat : PairOn rel (cbs ++ [cb]) g ↔ PairOn rel cbs g ∨
    ∃ b, cb = .access b ∧ Counts cbs b g ∧
      ∃ k u v, MadeOn cbs g k u ∧ strandAfter cbs = some v ∧ rel k u b.isRead v := by
  constructor
  · rintro ⟨pre, b, post, heq, hpair⟩
    rcases concat_eq_append_cons.mp heq with ⟨rfl, rfl, -⟩ | ⟨post', rfl, -⟩
    · exact Or.inr ⟨b, rfl, hpair⟩
    · exact Or.inl ⟨pre, b, post', rfl, hpair⟩
  · rintro (⟨pre, b, post, rfl, hpair⟩ | ⟨b, rfl, hpair⟩)
    · exact ⟨pre, b, post ++ [cb], by simp, hpair⟩
    · exact ⟨cbs, b, [], rfl, hpair⟩

end Callbacks

/-! ## The log tells of the callbacks

`DetectorRuns` speaks of the log, whose entries are calls with `Current` objects. An access of 16 bytes may be several
of them, and it is none while the switches are off. -/

/-- The call reaches the slot of grain `g`. -/
def OnGrain {P : Type} (a : Access P) (g : Nat) : Prop := ∃ key i, TouchesCell a key i ∧ g = grainOf key i

/-- Strand `u` has called for an access of kind `k` to grain `g`. -/
def MadeBy (log : List Entry) (g : Nat) (k : Bool) (u : Strand) : Prop :=
  ∃ c ∈ log, OnGrain c.2 g ∧ c.2.isRead = k ∧ c.1 = u

/-- The same of the log of the calls of `check_access`. -/
def LogPair (rel : Bool → Strand → Bool → Strand → Prop) (log : List Entry) (g : Nat) : Prop :=
  ∃ pre c post, log = pre ++ c :: post ∧ OnGrain c.2 g ∧ ∃ k u, MadeBy pre g k u ∧ rel k u c.2.isRead c.1

section Log

variable {log : List Entry} {cs : List (Access CurrentPtr)} {g : Nat} {k r : Bool} {u v : Strand}
  {rel : Bool → Strand → Bool → Strand → Prop}

/-- **Several calls** of one strand, of one kind. -/
theorem madeBy_append (hsame : ∀ c ∈ cs, c.isRead = r) : MadeBy (log ++ cs.map fun c => (v, c)) g k u ↔
    MadeBy log g k u ∨ ((∃ c ∈ cs, OnGrain c g) ∧ r = k ∧ v = u) := by
  unfold MadeBy
  constructor
  · rintro ⟨c, hc, hon, hk, hu⟩
    rcases List.mem_append.mp hc with hc | hc
    · exact Or.inl ⟨c, hc, hon, hk, hu⟩
    · obtain ⟨a, ha, rfl⟩ := List.mem_map.mp hc
      exact Or.inr ⟨⟨a, ha, hon⟩, (hsame a ha).symm.trans hk, hu⟩
  · rintro (⟨c, hc, h⟩ | ⟨⟨a, ha, hon⟩, hk, hu⟩)
    · exact ⟨c, List.mem_append_left _ hc, h⟩
    · exact ⟨(v, a), List.mem_append_right _ (List.mem_map_of_mem ha), hon, (hsame a ha).trans hk, hu⟩

/-- **Several calls** of one strand are no pair by themselves, when `rel` needs two kinds or two strands. -/
theorem logPair_append (hrel : ∀ k u, ¬rel k u k u) (hsame : ∀ c ∈ cs, c.isRead = r) :
    LogPair rel (log ++ cs.map fun c => (v, c)) g ↔
      LogPair rel log g ∨ ((∃ c ∈ cs, OnGrain c g) ∧ ∃ k u, MadeBy log g k u ∧ rel k u r v) := by
  induction cs using List.reverseRecOn with
  | nil => simp
  | append_singleton cs c ih =>
      have hold := fun c' (hc' : c' ∈ cs) => hsame c' (List.mem_append_left _ hc')
      have hr := hsame c (by simp)
      have hsplit : log ++ (cs ++ [c]).map (fun c => (v, c)) = (log ++ cs.map fun c => (v, c)) ++ [(v, c)] := by
        simp
      rw [hsplit]
      constructor
      · rintro ⟨pre, c', post, heq, hon, k, u, hmade, hpair⟩
        rcases concat_eq_append_cons.mp heq with ⟨rfl, rfl, -⟩ | ⟨post', heq', -⟩
        · rcases (madeBy_append hold).mp hmade with hmade | ⟨-, rfl, rfl⟩
          · exact Or.inr ⟨⟨c, by simp, hon⟩, k, u, hmade, by rwa [← hr]⟩
          · rw [show ((v, c) : Entry).2.isRead = r from hr] at hpair
            exact absurd hpair (hrel r v)
        · rcases (ih hold).mp ⟨pre, c', post', heq', hon, k, u, hmade, hpair⟩ with h | ⟨⟨b, hb, hon⟩, h⟩
          · exact Or.inl h
          · exact Or.inr ⟨⟨b, List.mem_append_left _ hb, hon⟩, h⟩
      · rintro (h | ⟨⟨b, hb, hon⟩, k, u, hmade, hpair⟩)
        · obtain ⟨pre, c', post, rfl, h⟩ := h
          exact ⟨pre, c', post ++ cs.map (fun c => (v, c)) ++ [(v, c)], by simp, h⟩
        · rcases List.mem_append.mp hb with hb | hb
          · obtain ⟨pre, c', post, heq, h⟩ := (ih hold).mpr (Or.inr ⟨⟨b, hb, hon⟩, k, u, hmade, hpair⟩)
            exact ⟨pre, c', post ++ [(v, c)], by simp [heq], h⟩
          · obtain rfl := List.mem_singleton.mp hb
            exact ⟨_, (v, b), [], rfl, hon, k, u, (madeBy_append hold).mpr (Or.inl hmade), by rwa [← hr] at hpair⟩

/-- The calls of an access have its grains. -/
theorem onGrain_calls {P : Type} {a : Access P} (ha : Delivered a) (hend : a.addr.toNat + a.memSize ≤ 2 ^ 64)
    {calls : List (Access P)} (hrun : tsanEntry a = some calls) :
    (∃ c ∈ calls, OnGrain c g) ↔ grainSize ≤ a.memSize ∧ a.Touches g := by
  by_cases hsize : 4 ≤ a.memSize
  · obtain ⟨calls', hrun', hparts⟩ := tsanEntry_parts ha hsize
    obtain rfl : calls = calls' := Option.some.inj (hrun.symm.trans hrun')
    rw [and_iff_right (show grainSize ≤ a.memSize from hsize), hparts.touches hend]
    refine exists_congr fun c => and_congr_right fun hc => ?_
    have hal := hparts.aligned c hc
    constructor
    · rintro ⟨key, i, ht, rfl⟩
      exact ht.touches (fits_of_aligned hal)
    · intro ht
      obtain ⟨key, i, hi, rfl⟩ := exists_slot_of_touches hal ht
      exact ⟨key, i, (touches_grainOf hal hi).mp ht, rfl⟩
  · have hsmall := ha.small hsize
    obtain rfl : calls = [a] := Option.some.inj (hrun.symm.trans (tsanEntry_small ha (Nat.lt_of_not_le hsize)).1)
    constructor
    · rintro ⟨c, hc, key, i, ⟨-, hlo, hhi⟩, -⟩
      obtain rfl := List.mem_singleton.mp hc
      have hnone : sizeToNumGrains c.memSize = 0 := by
        rw [sizeToNumGrains_eq]
        omega
      omega
    · rintro ⟨hle, -⟩
      exact absurd hle hsize

end Log

/-- The flags and the log of the detector say what the callbacks were. -/
structure Tells (cbs : List Callback) (w : Watch) : Prop where
  strand : strandAfter cbs = some w.prog.cur
  disabled : w.det.checkingDisabled = cbs.foldl nextOpen 0
  instrumented : w.det.instrumentation = true ↔ .disableInstrumentation ∉ cbs
  made : ∀ g k u, MadeOn cbs g k u ↔ MadeBy w.log g k u
  pairs : ∀ rel, (∀ k u, ¬rel k u k u) → ∀ g, PairOn rel cbs g ↔ LogPair rel w.log g

section Steps

variable {cbs : List Callback} {cb : Callback} {w w' : Watch} {g : Nat}

/-- No callback and no call. -/
theorem tells_init : Tells [] .init := by
  refine ⟨rfl, rfl, by simp [Watch.init, Detector.init], ?_, ?_⟩
  · intro g k u
    constructor
    · rintro ⟨pre, a, mid, heq, -⟩
      simp at heq
    · rintro ⟨c, hc, -⟩
      cases hc
  · intro rel _ g
    constructor
    · rintro ⟨pre, b, post, heq, -⟩
      simp at heq
    · rintro ⟨pre, c, post, heq, -⟩
      simp [Watch.init] at heq

/-- The races of the callbacks are those of the log. -/
theorem Tells.race_iff (h : Tells cbs w) {d : Dag Serial.EdgeKind} : RaceOn d cbs g ↔
    LogPair (fun k u k' v => (k = false ∨ k' = false) ∧ d.Parallel isDep u v) w.log g :=
  h.pairs _ (fun _ _ hpair => hpair.2.1 rfl) g

/-- A strand's own accesses of both kinds, by the log. -/
theorem Tells.self_iff (h : Tells cbs w) : SelfOn cbs g ↔ LogPair (fun k u k' v => u = v ∧ k ≠ k') w.log g :=
  h.pairs _ (fun _ _ hpair => hpair.2 rfl) g

/-- The detector looks at the switches of the user. -/
theorem Tells.shouldCheck (h : Tells cbs w) : w.det.shouldCheck = true ↔ SwitchedOn cbs := by
  rw [Detector.shouldCheck, Bool.and_eq_true, decide_eq_true_eq, h.instrumented, h.disabled]
  exact and_comm

/-- Whatever is no access adds nothing to the log. -/
theorem Tells.quiet (h : Tells cbs w) (haccess : ∀ a, cb ≠ .access a) (hlog : w'.log = w.log)
    (hstrand : strandAfter (cbs ++ [cb]) = some w'.prog.cur)
    (hdisabled : w'.det.checkingDisabled = nextOpen w.det.checkingDisabled cb)
    (hinstrumented : w'.det.instrumentation = true ↔ w.det.instrumentation = true ∧ cb ≠ .disableInstrumentation) :
    Tells (cbs ++ [cb]) w' := by
  refine ⟨hstrand, ?_, ?_, ?_, ?_⟩
  · rw [hdisabled, h.disabled]
    simp
  · rw [hinstrumented, h.instrumented, List.mem_append, List.mem_singleton, not_or]
    exact and_congr_right fun _ => not_congr eq_comm
  · intro g k u
    rw [madeOn_concat, hlog, ← h.made]
    simp [haccess]
  · intro rel hrel g
    rw [pairOn_concat, hlog, ← h.pairs rel hrel]
    simp [haccess]

/-- **An access**, by what its calls add to the log. -/
theorem Tells.access (h : Tells cbs w) {a : Access Unit} (ha : Delivered a) (hend : a.addr.toNat + a.memSize ≤ 2 ^ 64)
    {calls : List (Access CurrentPtr)} (hprog : w'.prog = w.prog)
    (hcalls : if a.memSize = 16 ∧ w.det.shouldCheck = false then calls = []
      else tsanEntry (w.det.own a) = some calls ∧ calls ≠ [])
    (hlog : w'.log = w.log ++ calls.map fun c => (w.prog.cur, c))
    (hinstrumented : w'.det.instrumentation = w.det.instrumentation)
    (hdisabled : w'.det.checkingDisabled = if calls.isEmpty then w.det.checkingDisabled else 0) :
    Tells (cbs ++ [.access a]) w' := by
  have hstrand : strandAfter (cbs ++ [.access a]) = some w'.prog.cur := by
    rw [strandAfter_quiet rfl, h.strand, hprog]
  have hinst : w'.det.instrumentation = true ↔ .disableInstrumentation ∉ cbs ++ [.access a] := by
    rw [hinstrumented, h.instrumented]
    simp
  by_cases hoff : a.memSize = 16 ∧ w.det.shouldCheck = false
  · -- nothing is checked, and the access does not count
    rw [if_pos hoff] at hcalls
    subst hcalls
    have hlog : w'.log = w.log := by simpa using hlog
    have hno : ∀ g, ¬Counts cbs a g := by
      rintro g ⟨-, -, hon⟩
      have hcheck := h.shouldCheck.mpr (hon hoff.1)
      rw [hoff.2] at hcheck
      cases hcheck
    refine ⟨hstrand, ?_, hinst, ?_, ?_⟩
    · rw [hdisabled, h.disabled]
      simp [nextOpen, hoff.1]
    · intro g k u
      rw [madeOn_concat, hlog, ← h.made]
      simp [hno]
    · intro rel hrel g
      rw [pairOn_concat, hlog, ← h.pairs rel hrel]
      simp [hno]
  · rw [if_neg hoff] at hcalls
    obtain ⟨hrun, hne⟩ := hcalls
    have hon : a.memSize = 16 → SwitchedOn cbs := by
      intro hsize
      refine h.shouldCheck.mp ?_
      by_contra hcheck
      exact hoff ⟨hsize, by simpa using hcheck⟩
    have hown : Delivered (w.det.own a) := ha
    have hkind : ∀ c ∈ calls, c.isRead = a.isRead := tsanEntry_isRead hrun
    have hcounts : ∀ g, Counts cbs a g ↔ ∃ c ∈ calls, OnGrain c g := by
      intro g
      rw [onGrain_calls hown hend hrun]
      exact ⟨fun hc => ⟨hc.1, hc.2.1⟩, fun hc => ⟨hc.1, hc.2, hon⟩⟩
    refine ⟨hstrand, ?_, hinst, ?_, ?_⟩
    · rw [hdisabled, if_neg (by simpa using hne), List.foldl_append]
      show 0 = if a.memSize = 16 then cbs.foldl nextOpen 0 else 0
      split
      · rename_i hsize
        exact (hon hsize).1.symm
      · rfl
    · intro g k u
      rw [madeOn_concat, hlog, madeBy_append hkind, h.made, h.strand]
      simp only [Callback.access.injEq, exists_eq_left', hcounts, Option.some.injEq]
    · intro rel hrel g
      rw [pairOn_concat, hlog, logPair_append hrel hkind, h.pairs rel hrel, h.strand]
      simp only [Callback.access.injEq, exists_eq_left', hcounts, h.made, Option.some.injEq, exists_and_left]

end Steps

/-! ## The reports and the log

A report is of a pair that was checked, and not every conflicting pair is. So for completeness one goes from any pair
to pairs that were checked: through the accesses that were noted in between, if none of these was reported. -/

section Reports

variable {forkJoin : Prop} {w : Watch} {nodes : List OmNode} {futs : List Nat} {b c : Entry} {key key' : Addr} {i i' g : Nat}

/-- A grain has one block and one place in it. -/
theorem grainOf_inj (hi : i < numSlots) (hi' : i' < numSlots) (h : grainOf key i = grainOf key' i') :
    key = key' ∧ i = i' := by
  simp only [grainOf, numSlots_eq] at h hi hi'
  exact ⟨BitVec.eq_of_toNat_eq (by omega), by omega⟩

/-- Two calls on a grain reach the same slot. -/
theorem Watched.slot (h : Watched forkJoin w nodes futs) (hb : b ∈ w.log) (hc : c ∈ w.log) (hbg : OnGrain b.2 g)
    (hcg : OnGrain c.2 g) : ∃ key i, TouchesCell b.2 key i ∧ TouchesCell c.2 key i ∧ g = grainOf key i := by
  obtain ⟨key, i, hbt, rfl⟩ := hbg
  obtain ⟨key', i', hct, heq⟩ := hcg
  obtain ⟨rfl, rfl⟩ := grainOf_inj (hbt.lt_of_fits (h.fits b hb)) (hct.lt_of_fits (h.fits c hc)) heq
  exact ⟨key, i, hbt, hct, rfl⟩

/-- Checked calls stand in the order of their strands. -/
theorem Watched.le_of_checked (h : Watched forkJoin w nodes futs) (hchecked : Checked w.log c b key i) : b.1 ≤ c.1 := by
  obtain ⟨pre, post, heq, hnoted⟩ := hchecked.call
  have horder := h.order
  rw [heq] at horder
  exact (List.pairwise_append.mp horder).2.2 b hnoted.since.mem c (by simp)

/-- **Checking what a slot has noted is enough**: what holds of the pairs that were checked at a slot holds of all
    conflicting calls there, when it is transitive. -/
theorem Watched.covered {r : Entry → Entry → Prop} (htrans : ∀ x y z, r x y → r y z → r x z)
    (hchecked : ∀ c b, Checked w.log c b key i → r b c) {pre post : List Entry} (heq : w.log = pre ++ c :: post)
    (hb : b ∈ pre) (hbt : TouchesCell b.2 key i) (hct : TouchesCell c.2 key i)
    (hconflict : b.2.isRead = false ∨ c.2.isRead = false) : r b c := by
  let q : Entry → Bool := fun e => decide (TouchesCell e.2 key i)
  have hnot : ∀ {e : Entry}, e.2.isRead = false → ¬e.2.isRead = true := by
    intro e he
    rw [he]
    exact Bool.false_ne_true
  have hq : q c = true := decide_eq_true hct
  have hsplit : w.log.filter q = pre.filter q ++ c :: post.filter q := by
    rw [heq, List.filter_append, List.filter_cons_of_pos hq]
  have hmem : b ∈ pre.filter q := List.mem_filter.mpr ⟨hb, decide_eq_true hbt⟩
  -- a call is checked against those that its slot has since, and the calls of the slot are the ones of the filter
  have hsince : ∀ p c' s, w.log.filter q = p ++ c' :: s → ∀ b', Since (fun e : Entry => e.2.isRead = true) p b' →
      ¬b'.2.isRead = true ∨ ¬c'.2.isRead = true → r b' c' := by
    intro p c' s hsplit b' hsince hne
    obtain ⟨l₁, l₂, hlog, rfl, hl₂⟩ := List.filter_eq_append_iff.mp hsplit
    obtain ⟨m₁, m₂, rfl, hm₁, hc't, -⟩ := List.filter_eq_cons_iff.mp hl₂
    have hskip : m₁.filter q = [] := List.filter_eq_nil_iff.mpr hm₁
    have hsince : Since (fun e : Entry => e.2.isRead = true) ((l₁ ++ m₁).filter q) b' := by
      rwa [List.filter_append, hskip, List.append_nil]
    obtain ⟨h₁, h₂, hpre, hb't, hreads⟩ := since_filter.mp hsince
    refine hchecked c' b' ⟨⟨l₁ ++ m₁, m₂, by simp [hlog], ⟨h₁, h₂, hpre, ?_⟩, of_decide_eq_true hb't⟩,
      of_decide_eq_true hc't, ?_⟩
    · exact fun e he ht => hreads e he (decide_eq_true ht)
    · simpa using hne
  exact related_of_since htrans hsince hsplit hmem (hconflict.imp hnot hnot)

/-- A conflict that is not reported is ordered, and not of one strand. -/
theorem Watched.ordered_of_not_mem (h : Watched forkJoin w nodes futs) (hno : grainOf key i ∉ w.races) :
    ∀ c b, Checked w.log c b key i → w.prog.dag.Reach isDep b.1 c.1 ∧ ¬SelfPair b c := by
  intro c b hchecked
  have hcomplete := h.complete c b key i hchecked
  exact ⟨by_contra fun hr => hno (hcomplete (Or.inl hr)), fun hself => hno (hcomplete (Or.inr hself))⟩

/-- **A race is reported.** -/
theorem Watched.race_reported (h : Watched forkJoin w nodes futs) (hrace : LogPair
    (fun k u k' v => (k = false ∨ k' = false) ∧ w.prog.dag.Parallel isDep u v) w.log g) : g ∈ w.races := by
  obtain ⟨pre, c, post, heq, hcg, -, -, ⟨b, hb, hbg, rfl, rfl⟩, hconflict, hpar⟩ := hrace
  obtain ⟨key, i, hbt, hct, rfl⟩ := h.slot (by simp [heq, hb]) (by simp [heq]) hbg hcg
  by_contra hno
  have hreach : w.prog.dag.Reach isDep b.1 c.1 :=
    Watched.covered (r := fun b c => w.prog.dag.Reach isDep b.1 c.1) (fun _ _ _ => Dag.Reach.trans)
      (fun c b hchecked => (h.ordered_of_not_mem hno c b hchecked).1) heq hb hbt hct hconflict
  exact hpar.2.1 ((Dag.path_iff h.trace.exec.sp.ok.wf).mpr ⟨hreach, hpar.1⟩)

/-- **A strand that reads and writes** a grain is reported. -/
theorem Watched.self_reported (h : Watched forkJoin w nodes futs)
    (hself : LogPair (fun k u k' v => u = v ∧ k ≠ k') w.log g) : g ∈ w.races := by
  obtain ⟨pre, c, post, heq, hcg, -, -, ⟨b, hb, hbg, rfl, rfl⟩, hsame, hkind⟩ := hself
  obtain ⟨key, i, hbt, hct, rfl⟩ := h.slot (by simp [heq, hb]) (by simp [heq]) hbg hcg
  by_contra hno
  -- the strands are in order, and no strand changes the kind of its accesses
  let r : Entry → Entry → Prop := fun b c => b.1 < c.1 ∨ (b.1 = c.1 ∧ b.2.isRead = c.2.isRead)
  have htrans : ∀ x y z, r x y → r y z → r x z := by
    rintro x y z (hxy | ⟨hxy, hk⟩) (hyz | ⟨hyz, hk'⟩)
    · exact Or.inl (Nat.lt_trans hxy hyz)
    · exact Or.inl (hyz ▸ hxy)
    · exact Or.inl (hxy ▸ hyz)
    · exact Or.inr ⟨hxy.trans hyz, hk.trans hk'⟩
  have hchecked : ∀ c b, Checked w.log c b key i → r b c := by
    intro c b hc
    rcases Nat.lt_or_eq_of_le (h.le_of_checked hc) with hlt | heq
    · exact Or.inl hlt
    · refine Or.inr ⟨heq, ?_⟩
      by_contra hk
      exact (h.ordered_of_not_mem hno c b hc).2 ⟨heq, hk⟩
  have hconflict : b.2.isRead = false ∨ c.2.isRead = false := by
    cases hb' : b.2.isRead with
    | false => exact Or.inl rfl
    | true =>
        refine Or.inr ?_
        rw [hb'] at hkind
        simpa using hkind.symm
  rcases Watched.covered htrans hchecked heq hb hbt hct hconflict with hlt | ⟨-, hk⟩
  · exact absurd hsame (Nat.ne_of_lt hlt)
  · exact hkind hk

/-- **Without futures nothing else is reported.** -/
theorem Watched.report_real (h : Watched forkJoin w nodes futs) (hp : forkJoin) (hg : g ∈ w.races) :
    LogPair (fun k u k' v => (k = false ∨ k' = false) ∧ w.prog.dag.Parallel isDep u v) w.log g ∨
      LogPair (fun k u k' v => u = v ∧ k ≠ k') w.log g := by
  obtain ⟨c, b, key, i, hchecked, rfl, hno⟩ := h.sound hp g hg
  have hle := h.le_of_checked hchecked
  obtain ⟨⟨pre, post, heq, hnoted⟩, hct, hconflict⟩ := hchecked
  have hcg : OnGrain c.2 (grainOf key i) := ⟨key, i, hct, rfl⟩
  have hmade : MadeBy pre (grainOf key i) b.2.isRead b.1 := ⟨b, hnoted.since.mem, ⟨key, i, hnoted.touches, rfl⟩, rfl, rfl⟩
  rcases hno with hno | ⟨hsame, hkind⟩
  · have hwf := h.trace.exec.sp.ok.wf
    have hne : b.1 ≠ c.1 := by
      intro hsame
      rw [hsame] at hno
      exact hno (Dag.Reach.refl _)
    refine Or.inl ⟨pre, c, post, heq, hcg, _, _, hmade, hconflict, hne, ?_, ?_⟩
    · exact fun hpath => hno ((Dag.path_iff hwf).mp hpath).1
    · intro hpath
      exact hne (Nat.le_antisymm hle (((Dag.path_iff hwf).mp hpath).1.le hwf))
  · exact Or.inr ⟨pre, c, post, heq, hcg, _, _, hmade, hsame, hkind⟩

end Reports

/-! ## Runs

The induction over the callbacks, and the two results. -/

/-- Fork-join events make no future. -/
theorem futures_run {es : List Event} (hes : ∀ e ∈ es, isForkJoinEvent e) : ∀ {s s' : State},
    Serial.run rules s es = some s' → s'.futures = s.futures := by
  induction es with
  | nil =>
      intro s s' hrun
      cases hrun
      rfl
  | cons e es ih =>
      intro s s' hrun
      obtain ⟨u, hu, hrest⟩ := Option.bind_eq_some_iff.mp hrun
      obtain ⟨he, hes⟩ := List.forall_mem_cons.mp hes
      rw [ih hes hrest]
      cases Serial.Step.of_step hu with
      | create => exact he.elim
      | finish => exact he.elim
      | _ => rfl

/-- No event takes a future away. -/
theorem futures_length_le {s s' : State} {e : Event} (h : Serial.Step rules s e s') :
    s.futures.length ≤ s'.futures.length := by
  cases h with
  | create => simp
  | finish => simp
  | _ => exact Nat.le_refl _

/-- One strand, one node, no call. -/
theorem watched_init (forkJoin : Prop) : Watched forkJoin .init [0] [0] where
  trace := traceOk_init
  one := oneByOne_init
  owners := rfl
  current := rfl
  owner := rfl
  cells _ _ := rfl
  made := by simp [Watch.init]
  fits := by simp [Watch.init]
  order := List.Pairwise.nil
  lt := by simp [Watch.init]
  complete := by
    rintro c b key i ⟨⟨pre, post, heq, -⟩, -, -⟩
    simp [Watch.init] at heq
  plain _ := plain_init
  sound := by
    intro _ g hg
    cases hg

/-- What the compiler promises of an access: it does not cross a boundary of its size, and addresses have 48 bits. -/
def Promised (a : Access Unit) : Prop := Delivered a ∧ a.addr.toNat + a.memSize ≤ 2 ^ 48

/-- **Every run goes through**, and the detector follows it. -/
theorem watched_run {cbs : List Callback} : ∀ {s : State},
    Serial.run rules Serial.init (cbs.filterMap Callback.toEvent) = some s → (∀ a, .access a ∈ cbs → Promised a) →
    s.futures.length < 2 ^ 32 → ∃ w nodes futs, Watch.run cbs = some w ∧ w.prog = s ∧ Tells cbs w ∧
      Watched (∀ e ∈ cbs.filterMap Callback.toEvent, isForkJoinEvent e) w nodes futs := by
  induction cbs using List.reverseRecOn with
  | nil =>
      intro s hs _ _
      cases hs
      exact ⟨.init, [0], [0], rfl, rfl, tells_init, watched_init _⟩
  | append_singleton cbs cb ih =>
      intro s hs haccess hfut
      have hbefore : ∀ a, .access a ∈ cbs → Promised a := fun a ha => haccess a (List.mem_append_left _ ha)
      cases hcb : cb.toEvent with
      | some e =>
          obtain rfl : cb = .event e := by
            cases cb with
            | event e' =>
                cases hcb
                rfl
            | _ => cases hcb
          have hmap : (cbs ++ [Callback.event e]).filterMap Callback.toEvent = cbs.filterMap Callback.toEvent ++ [e] := by
            simp [List.filterMap_append, Callback.toEvent]
          rw [hmap] at hs ⊢
          obtain ⟨t, ht, hstep⟩ := Serial.run_append.mp hs
          obtain ⟨t', hstep, hlast⟩ := Option.bind_eq_some_iff.mp hstep
          cases hlast
          have hle := futures_length_le (Serial.Step.of_step hstep)
          obtain ⟨w, nodes, futs, hrun, rfl, htells, hw⟩ := ih ht hbefore (Nat.lt_of_le_of_lt hle hfut)
          have hevents : (∀ e' ∈ cbs.filterMap Callback.toEvent ++ [e], isForkJoinEvent e') →
              (∀ e' ∈ cbs.filterMap Callback.toEvent, isForkJoinEvent e') ∧ isForkJoinEvent e := fun hall =>
            ⟨fun e' he' => hall e' (List.mem_append_left _ he'), hall e (by simp)⟩
          obtain ⟨w', nodes', futs', hw', rfl, hlog, hinst, hdis, hwatched⟩ := hw.event hstep hevents
          refine ⟨w', nodes', futs', by rw [Watch.run_concat, hrun]; exact hw', rfl, ?_, hwatched⟩
          refine htells.quiet (by simp) hlog ?_ hdis (by simp [hinst])
          rw [strandAfter, hmap, hs]
          rfl
      | none =>
          have hmap : (cbs ++ [cb]).filterMap Callback.toEvent = cbs.filterMap Callback.toEvent := by
            simp [List.filterMap_append, hcb]
          rw [hmap] at hs ⊢
          obtain ⟨w, nodes, futs, hrun, rfl, htells, hw⟩ := ih hs hbefore hfut
          have hstrand : strandAfter (cbs ++ [cb]) = some w.prog.cur := by
            rw [strandAfter_quiet hcb, htells.strand]
          cases cb with
          | event e => cases hcb
          | access a =>
              obtain ⟨hdelivered, hend⟩ := haccess a (by simp)
              obtain ⟨w', calls, hw', hprog, hcalls, hlog, hinst, hdis, hwatched⟩ := hw.access hfut hdelivered
              exact ⟨w', nodes, futs, by rw [Watch.run_concat, hrun]; exact hw', hprog,
                htells.access hdelivered (by omega) hprog hcalls hlog hinst hdis, hwatched⟩
          | funcExit =>
              refine ⟨{ w with det := { w.det with checkingDisabled := 0 } }, nodes, futs,
                by rw [Watch.run_concat, hrun]; rfl, rfl, ?_, { hw with }⟩
              exact htells.quiet (by simp) rfl hstrand rfl (by simp)
          | enableChecking =>
              refine ⟨{ w with det := { w.det with checkingDisabled := w.det.checkingDisabled - 1 } }, nodes, futs,
                by rw [Watch.run_concat, hrun]; rfl, rfl, ?_, { hw with }⟩
              exact htells.quiet (by simp) rfl hstrand rfl (by simp)
          | disableChecking =>
              refine ⟨{ w with det := { w.det with checkingDisabled := w.det.checkingDisabled + 1 } }, nodes, futs,
                by rw [Watch.run_concat, hrun]; rfl, rfl, ?_, { hw with }⟩
              exact htells.quiet (by simp) rfl hstrand rfl (by simp)
          | disableInstrumentation =>
              refine ⟨{ w with det := { w.det with instrumentation := false } }, nodes, futs,
                by rw [Watch.run_concat, hrun]; rfl, rfl, ?_, { hw with }⟩
              exact htells.quiet (by simp) rfl hstrand rfl (by simp)

/-- **F-Order is exact without futures**, but for the strands that read and write: these are reported too. -/
theorem reports_exact {cbs : List Callback} {s : State}
    (hrun : Serial.run rules Serial.init (cbs.filterMap Callback.toEvent) = some s)
    (haccess : ∀ a, .access a ∈ cbs → Promised a) (hforkJoin : ∀ e ∈ cbs.filterMap Callback.toEvent, isForkJoinEvent e) :
    ∃ w, Watch.run cbs = some w ∧ w.prog = s ∧ ∀ g, g ∈ w.races ↔ RaceOn s.dag cbs g ∨ SelfOn cbs g := by
  have hfut : s.futures.length < 2 ^ 32 := by
    rw [futures_run hforkJoin hrun]
    exact Nat.two_pow_pos 32
  obtain ⟨w, nodes, futs, hw, rfl, htells, hwatched⟩ := watched_run hrun haccess hfut
  refine ⟨w, hw, rfl, fun g => ?_⟩
  rw [htells.race_iff, htells.self_iff]
  constructor
  · exact hwatched.report_real hforkJoin
  · rintro (hrace | hself)
    · exact hwatched.race_reported hrace
    · exact hwatched.self_reported hself

/-- A spawned strand and its continuation write the same word and the same single byte; the continuation also reads and
    writes a word of its own, and reads 16 bytes while checking is off. -/
def forkWriters : List Callback :=
  [.event .spawn, .access ⟨false, 1, 64, 4, ()⟩, .access ⟨false, 2, 80, 1, ()⟩, .event .spawnRet,
    .access ⟨false, 3, 64, 8, ()⟩, .access ⟨false, 4, 80, 1, ()⟩, .access ⟨true, 5, 128, 4, ()⟩,
    .access ⟨false, 6, 128, 4, ()⟩, .disableChecking, .access ⟨true, 7, 64, 16, ()⟩]

theorem promised_forkWriters : ∀ a, .access a ∈ forkWriters → Promised a := by
  intro a ha
  simp only [forkWriters, List.mem_cons, Callback.access.injEq, List.not_mem_nil, or_false, reduceCtorEq, false_or] at ha
  rcases ha with rfl | rfl | rfl | rfl | rfl | rfl | rfl
  · exact ⟨Or.inl ⟨by decide, rfl⟩, by decide⟩
  · exact ⟨Or.inl ⟨by decide, rfl⟩, by decide⟩
  · exact ⟨Or.inl ⟨by decide, rfl⟩, by decide⟩
  · exact ⟨Or.inl ⟨by decide, rfl⟩, by decide⟩
  · exact ⟨Or.inl ⟨by decide, rfl⟩, by decide⟩
  · exact ⟨Or.inl ⟨by decide, rfl⟩, by decide⟩
  · exact ⟨Or.inr ⟨rfl, rfl⟩, by decide⟩

/-- Grain `16` is a race, and grain `32` the word that one strand reads and writes. -/
theorem reports_exact_forkWriters : ∃ w, Watch.run forkWriters = some w ∧
    ∀ g, RaceOn w.prog.dag forkWriters g ∨ SelfOn forkWriters g ↔ g = 16 ∨ g = 32 := by
  obtain ⟨s, hrun⟩ : ∃ s, Serial.run rules Serial.init (forkWriters.filterMap Callback.toEvent) = some s := ⟨_, rfl⟩
  have hforkJoin : ∀ e ∈ forkWriters.filterMap Callback.toEvent, isForkJoinEvent e := by
    intro e he
    rcases List.mem_cons.mp he with rfl | he
    · trivial
    · rw [List.mem_singleton.mp he]
      trivial
  obtain ⟨w, hw, rfl, hexact⟩ := reports_exact hrun promised_forkWriters hforkJoin
  have hraces : (Watch.run forkWriters).map Watch.races = some [16, 32] := by decide +kernel
  rw [hw] at hraces
  have hraces : w.races = [16, 32] := Option.some.inj hraces
  refine ⟨w, hw, fun g => ?_⟩
  rw [← hexact, hraces]
  simp

end FOrder.Rdtool
