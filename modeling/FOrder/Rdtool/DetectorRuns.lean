import FOrder.Rdtool.DetectorChecks

/-!
# `Rdtool.DetectorRuns` — what is known after a run of the detector

Next to the detector stand the program and a log: the calls of `check_access`, each with the strand that made it.
`Watched` says how they go together:

- the shadow memory holds, for each slot, the fold of the calls that reach it (`cells`), so what a call is checked
  against are the calls that the log still has noted there;
- a call was made by the strand of its `Current` object (`made`), and strands make their calls in their order;
- every call that was checked against a noted one that it conflicts with comes after it, or its grain is reported
  (`complete`). The exception are two calls of one strand of which one reads and one writes: `Precedes` says no of a
  strand and itself, so these are reported as well;
- while there are no futures, nothing else is reported (`sound`).

One call keeps it (`Watched.check`), so all calls of an access do (`Watched.checks`), and so does an event
(`Watched.event`). The check asks `Precedes` of the tool at that moment; what a later event does to the tool is no
matter, because the dag it is compared with only grows at the end.
-/

namespace FOrder.Rdtool

open Serial (State Event FutId Strand Step step_dag isForkJoin isDep)

/-- A call of `check_access`, and who made it. -/
abbrev Entry := Strand × Access CurrentPtr

/-- One strand reads and writes. -/
def SelfPair (b c : Entry) : Prop := b.1 = c.1 ∧ b.2.isRead ≠ c.2.isRead

/-- Call `c` was checked against call `b` at a slot, and they conflict. -/
structure Checked (log : List Entry) (c b : Entry) (key : Addr) (i : Nat) : Prop where
  call : ∃ pre post, log = pre ++ c :: post ∧ Noted pre key i b
  touches : TouchesCell c.2 key i
  conflict : b.2.isRead = false ∨ c.2.isRead = false

/-- Checked calls that are not ordered are reported, and those of one strand. -/
def Complete (d : Dag Serial.EdgeKind) (log : List Entry) (races : List Nat) : Prop :=
  ∀ c b key i, Checked log c b key i → ¬d.Reach isDep b.1 c.1 ∨ SelfPair b c → grainOf key i ∈ races

/-- Only such calls are reported. -/
def Sound (d : Dag Serial.EdgeKind) (log : List Entry) (races : List Nat) : Prop :=
  ∀ g ∈ races, ∃ c b key i, Checked log c b key i ∧ g = grainOf key i ∧ (¬d.Reach isDep b.1 c.1 ∨ SelfPair b c)

/-- What is known after a run so far; `forkJoin` says that it has no futures. -/
structure Watched (forkJoin : Prop) (w : Watch) (nodes : List OmNode) (futs : List Nat) : Prop where
  trace : TraceOk w.exec nodes futs
  one : OneByOne w.prog.dag nodes
  owners : w.owners.length = w.det.currents.length
  current : w.det.currents[w.det.current]? = some w.det.tool.current
  owner : w.owners[w.det.current]? = some w.prog.cur
  cells : ∀ key i, cellAt ⟨[], none⟩ w.det.shadowMem key i = runCell (cellHistory (w.log.map Prod.snd) key i)
  made : ∀ c ∈ w.log, w.owners[c.2.current]? = some c.1
  fits : ∀ c ∈ w.log, c.2.Fits
  order : w.log.Pairwise fun b c => b.1 ≤ c.1
  lt : ∀ c ∈ w.log, c.1 < w.prog.dag.length
  complete : Complete w.prog.dag w.log w.races
  plain : forkJoin → Plain w.prog nodes
  sound : forkJoin → Sound w.prog.dag w.log w.races

/-! ## One call

A call is checked against what the slot has noted, entry by entry. For each of these the answer is a path, or no path,
or the strand is the same. -/

section Checks

variable {forkJoin : Prop} {w : Watch} {nodes : List OmNode} {futs : List Nat} {log : List Entry} {b c e : Entry} {key : Addr}
  {i : Nat}

/-- What is checked against the newest call. -/
theorem checked_concat : Checked (log ++ [e]) c b key i ↔ Checked log c b key i ∨
    (c = e ∧ Noted log key i b ∧ TouchesCell c.2 key i ∧ (b.2.isRead = false ∨ c.2.isRead = false)) := by
  constructor
  · rintro ⟨⟨pre, post, heq, hnoted⟩, ht, hconflict⟩
    rcases concat_eq_append_cons.mp heq with ⟨rfl, rfl, -⟩ | ⟨post', rfl, -⟩
    · exact Or.inr ⟨rfl, hnoted, ht, hconflict⟩
    · exact Or.inl ⟨⟨pre, post', rfl, hnoted⟩, ht, hconflict⟩
  · rintro (⟨⟨pre, post, rfl, hnoted⟩, ht, hconflict⟩ | ⟨rfl, hnoted, ht, hconflict⟩)
    · exact ⟨⟨pre, post ++ [e], by simp, hnoted⟩, ht, hconflict⟩
    · exact ⟨⟨log, [], rfl, hnoted⟩, ht, hconflict⟩

/-- Both calls are in the log. -/
theorem Checked.mem (h : Checked log c b key i) : c ∈ log ∧ b ∈ log := by
  obtain ⟨pre, post, rfl, hnoted⟩ := h.call
  exact ⟨by simp, List.mem_append_left _ hnoted.since.mem⟩

/-- The calls of a run are compared in any later dag. -/
theorem Complete.concat {d : Dag Serial.EdgeKind} {races : List Nat} (h : Complete d log races)
    (es : List (InEdge Serial.EdgeKind)) : Complete (d ++ [es]) log races := by
  intro c b key i hchecked hno
  exact h c b key i hchecked (hno.imp_left fun hno hr => hno (hr.concat es))

/-- Later strands add no path between earlier ones. -/
theorem Sound.concat {d : Dag Serial.EdgeKind} {races : List Nat} (h : Sound d log races) (hwf : d.WF)
    (hlt : ∀ c ∈ log, c.1 < d.length) (es : List (InEdge Serial.EdgeKind)) : Sound (d ++ [es]) log races := by
  intro g hg
  obtain ⟨c, b, key, i, hchecked, rfl, hno⟩ := h g hg
  exact ⟨c, b, key, i, hchecked, rfl, hno.imp_left fun hno hr =>
    hno ((Dag.reach_concat_old hwf (hlt c hchecked.mem.1)).mp hr)⟩

/-- What the detector knows of a noted call. -/
theorem Watched.past (h : Watched forkJoin w nodes futs) (hb : b ∈ w.log) :
    ∃ cur, w.det.currents[b.2.current]? = some cur ∧ (b.1, cur) ∈ w.exec.past := by
  have howner := h.made b hb
  have hlt : b.2.current < w.det.currents.length := by
    rw [← h.owners]
    exact lt_length_of_getElem? howner
  refine ⟨w.det.currents[b.2.current], List.getElem?_eq_getElem hlt, ?_⟩
  refine List.mem_of_getElem? (i := b.2.current) ?_
  show (w.owners.zip w.det.currents)[b.2.current]? = _
  rw [List.getElem?_zip_eq_some]
  exact ⟨howner, List.getElem?_eq_getElem hlt⟩

/-- **A check against a noted call** fails exactly when there is no path, or one strand reads and writes. -/
theorem Watched.fails_iff (h : Watched forkJoin w nodes futs) (hfut : w.prog.futures.length < 2 ^ 32) (hb : b ∈ w.log)
    {a : Access CurrentPtr} (ha : a.current = w.det.current) (hconflict : b.2.isRead = false ∨ a.isRead = false) :
    (¬w.prog.dag.Reach isDep b.1 w.prog.cur ∨ SelfPair b (w.prog.cur, a) →
      Fails w.det.english w.det.precedes a b.2) ∧
    (forkJoin → Fails w.det.english w.det.precedes a b.2 →
      ¬w.prog.dag.Reach isDep b.1 w.prog.cur ∨ SelfPair b (w.prog.cur, a)) := by
  obtain ⟨cur, hcur, hpast⟩ := h.past hb
  obtain ⟨answer, hanswer, hyes⟩ := h.trace.answer hfut hpast
  have hprecedes : w.det.precedes b.2.current a.current = answer := by
    have hanswer : w.det.tool.precedes cur w.det.tool.current = some answer := hanswer
    simp [Detector.precedes, hcur, ha, h.current, hanswer]
  have henglish : ∀ {p : CurrentPtr} {x : Current}, w.det.currents[p]? = some x → w.det.english p = some x.node := by
    intro p x hx
    simp [Detector.english, hx]
  have hnode : b.1 = w.prog.cur → cur.node = w.det.tool.current.node := by
    intro hsame
    have hleft := h.trace.exec.past _ hpast
    have hright : nodes[w.prog.cur]? = some w.det.tool.current.node := h.trace.exec.sp.node
    rw [show (b.1, cur).1 = w.prog.cur from hsame, hright] at hleft
    exact (Option.some.inj hleft).symm
  rw [Fails, hprecedes, henglish hcur, ha, henglish h.current]
  constructor
  · intro hno
    refine ⟨hconflict, ?_, ?_⟩
    · -- a yes is a path from another node, so from another strand
      rw [Bool.eq_false_iff]
      intro htrue
      obtain ⟨hreach, hother⟩ := hyes htrue
      rcases hno with hno | ⟨hsame, -⟩
      · exact hno hreach
      · exact hother (hnode hsame)
    · intro hkind heq
      rcases hno with hno | ⟨-, hself⟩
      · exact hno (h.trace.reach_of_node h.one hpast (Option.some.inj heq))
      · exact hself hkind
  · rintro hp ⟨-, hfalse, hsep⟩
    by_cases hreach : w.prog.dag.Reach isDep b.1 w.prog.cur
    · -- a path that is not answered starts at the current strand
      have hsame : b.1 = w.prog.cur := by
        by_contra hne
        rw [h.trace.precedes_of_path (h.plain hp) hpast hreach hne] at hanswer
        rw [← Option.some.inj hanswer] at hfalse
        cases hfalse
      exact Or.inr ⟨hsame, fun hkind => hsep hkind (congrArg some (hnode hsame))⟩
    · exact Or.inl hreach

/-- **One call** of `check_access`. -/
theorem Watched.check (h : Watched forkJoin w nodes futs) (hfut : w.prog.futures.length < 2 ^ 32)
    {a : Access CurrentPtr} (ha : a.current = w.det.current) (hfit : a.Fits) :
    ∃ mem rs, checkAccess w.det.english w.det.precedes w.det.shadowMem a = some (mem, rs) ∧
      Watched forkJoin { w with
        det := { w.det with shadowMem := mem }
        log := w.log ++ [(w.prog.cur, a)]
        races := w.races ++ rs } nodes futs := by
  obtain ⟨mem, rs, hrun, hcell, hrep⟩ :=
    (checkAccess_grainByGrain w.det.english w.det.precedes).run w.det.shadowMem a hfit
  have hreports : ∀ g, g ∈ rs ↔ ∃ key i, TouchesCell a key i ∧ g = grainOf key i ∧
      ∃ b, Noted w.log key i b ∧ Fails w.det.english w.det.precedes a b.2 := by
    intro g
    rw [hrep]
    simp only [SlotReport, h.cells, cellReport_noted]
  have hcur : w.prog.cur < w.prog.dag.length := h.trace.exec.sp.ok.cur_lt
  refine ⟨mem, rs, hrun, ⟨h.trace, h.one, h.owners, h.current, h.owner, ?_, ?_, ?_, ?_, ?_, ?_, h.plain, ?_⟩⟩
  · intro key i
    rw [hcell, h.cells, List.map_append, List.map_singleton, cellHistory_concat]
    by_cases ht : TouchesCell a key i
    · rw [if_pos ht, if_pos ht]
      exact (runCell_concat _ a).symm
    · rw [if_neg ht, if_neg ht]
  · intro c hc
    rcases List.mem_append.mp hc with hc | hc
    · exact h.made c hc
    · rw [List.mem_singleton.mp hc]
      show w.owners[a.current]? = some w.prog.cur
      rw [ha]
      exact h.owner
  · intro c hc
    rcases List.mem_append.mp hc with hc | hc
    · exact h.fits c hc
    · rw [List.mem_singleton.mp hc]
      exact hfit
  · refine List.pairwise_append.mpr ⟨h.order, List.pairwise_singleton _ _, ?_⟩
    intro b hb c hc
    rw [List.mem_singleton.mp hc]
    have hlt := h.lt b hb
    have hlast : w.prog.cur + 1 = w.prog.dag.length := h.trace.exec.sp.cur
    rw [← hlast] at hlt
    exact Nat.le_of_lt_succ hlt
  · intro c hc
    rcases List.mem_append.mp hc with hc | hc
    · exact h.lt c hc
    · rw [List.mem_singleton.mp hc]
      exact hcur
  · intro c b key i hchecked hno
    rcases checked_concat.mp hchecked with hold | ⟨rfl, hnoted, ht, hconflict⟩
    · exact List.mem_append_left _ (h.complete c b key i hold hno)
    · exact List.mem_append_right _ ((hreports _).mpr
        ⟨key, i, ht, rfl, b, hnoted, (h.fails_iff hfut hnoted.since.mem ha hconflict).1 hno⟩)
  · intro hp g hg
    rcases List.mem_append.mp hg with hg | hg
    · obtain ⟨c, b, key, i, hchecked, hgrain, hno⟩ := h.sound hp g hg
      exact ⟨c, b, key, i, checked_concat.mpr (Or.inl hchecked), hgrain, hno⟩
    · obtain ⟨key, i, ht, hgrain, b, hnoted, hfails⟩ := (hreports g).mp hg
      refine ⟨(w.prog.cur, a), b, key, i, checked_concat.mpr (Or.inr ⟨rfl, hnoted, ht, hfails.1⟩), hgrain, ?_⟩
      exact (h.fails_iff hfut hnoted.since.mem ha hfails.1).2 hp hfails

/-- **The calls of an access**, one after the other. -/
theorem Watched.checks (h : Watched forkJoin w nodes futs) (hfut : w.prog.futures.length < 2 ^ 32)
    {calls : List (Access CurrentPtr)} (hcalls : ∀ a ∈ calls, a.current = w.det.current ∧ a.Fits) :
    ∃ mem rs, checkAll (checkAccess w.det.english w.det.precedes) calls w.det.shadowMem = some (mem, rs) ∧
      Watched forkJoin { w with
        det := { w.det with shadowMem := mem }
        log := w.log ++ calls.map fun a => (w.prog.cur, a)
        races := w.races ++ rs } nodes futs := by
  induction calls generalizing w with
  | nil => exact ⟨w.det.shadowMem, [], rfl, by simpa using h⟩
  | cons a as ih =>
      obtain ⟨mem₁, r₁, hrun₁, h₁⟩ := h.check hfut (hcalls a (by simp)).1 (hcalls a (by simp)).2
      obtain ⟨mem₂, r₂, hrun₂, h₂⟩ := ih h₁ hfut (fun c hc => hcalls c (by simp [hc]))
      have hrun₂ : checkAll (checkAccess w.det.english w.det.precedes) as mem₁ = some (mem₂, r₂) := hrun₂
      refine ⟨mem₂, r₁ ++ r₂, by simp [checkAll, hrun₁, hrun₂], ?_⟩
      simpa using h₂

/-! ## One access

Every access that is delivered can be split, and each of its calls stays in its block, so no assertion fails, and
`Precedes` answers whatever it is asked. -/

/-- The calls of an access stay in their blocks. -/
theorem fits_of_tsanEntry {P : Type} {a : Access P} (ha : Delivered a) {calls : List (Access P)}
    (hrun : tsanEntry a = some calls) : ∀ c ∈ calls, c.Fits ∧ c.current = a.current := by
  by_cases hsize : 4 ≤ a.memSize
  · obtain ⟨calls', hrun', hparts⟩ := tsanEntry_parts ha hsize
    obtain rfl : calls = calls' := Option.some.inj (hrun.symm.trans hrun')
    exact fun c hc => ⟨fits_of_aligned (hparts.aligned c hc), (hparts.same c hc).2⟩
  · have hsmall := ha.small hsize
    obtain rfl : calls = [a] := Option.some.inj (hrun.symm.trans (tsanEntry_small ha (Nat.lt_of_not_le hsize)).1)
    intro c hc
    obtain rfl := List.mem_singleton.mp hc
    have hstart := addrToMemIndex_lt c.addr
    have hnone : sizeToNumGrains c.memSize = 0 := by
      rw [sizeToNumGrains_eq]
      omega
    refine ⟨?_, rfl⟩
    unfold Access.Fits
    omega

/-- An access as the current strand makes it. -/
def Detector.own (d : Detector) (a : Access Unit) : Access CurrentPtr := ⟨a.isRead, a.rip, a.addr, a.memSize, d.current⟩

/-- Every delivered access has calls. -/
theorem exists_tsanEntry {P : Type} {a : Access P} (ha : Delivered a) : ∃ calls, tsanEntry a = some calls ∧ calls ≠ [] := by
  by_cases hsize : 4 ≤ a.memSize
  · obtain ⟨calls, hrun, hparts⟩ := tsanEntry_parts ha hsize
    refine ⟨calls, hrun, ?_⟩
    rintro rfl
    obtain ⟨c, hc, -⟩ := (hparts.bytes a.addr).mp ⟨0, by omega, (ptrAdd_zero a.addr).symm⟩
    cases hc
  · exact ⟨[a], (tsanEntry_small ha (Nat.lt_of_not_le hsize)).1, by simp⟩

/-- **An access** goes through: one of 16 bytes while the checks are off has no calls. -/
theorem Watched.access (h : Watched forkJoin w nodes futs) (hfut : w.prog.futures.length < 2 ^ 32) {a : Access Unit}
    (ha : Delivered a) : ∃ w' calls, w.step (.access a) = some w' ∧ w'.prog = w.prog ∧
      (if a.memSize = 16 ∧ w.det.shouldCheck = false then calls = []
        else tsanEntry (w.det.own a) = some calls ∧ calls ≠ []) ∧
      w'.log = w.log ++ calls.map (fun c => (w.prog.cur, c)) ∧ w'.det.instrumentation = w.det.instrumentation ∧
      w'.det.checkingDisabled = (if calls.isEmpty then w.det.checkingDisabled else 0) ∧
      Watched forkJoin w' nodes futs := by
  have hlist : w.det.tool.current.list < w.det.tool.lists.length :=
    (current_eq h.trace.exec.sp.linked h.trace.exec.sp.stack.nonempty).2
  have hown : Delivered (w.det.own a) := ha
  obtain ⟨calls, hcalls, hwhich⟩ : ∃ calls, w.det.calls a = some calls ∧
      (if a.memSize = 16 ∧ w.det.shouldCheck = false then calls = []
        else tsanEntry (w.det.own a) = some calls ∧ calls ≠ []) := by
    by_cases hoff : a.memSize = 16 ∧ w.det.shouldCheck = false
    · exact ⟨[], by simp [Detector.calls, hoff], by rw [if_pos hoff]⟩
    · obtain ⟨calls, hrun, hne⟩ := exists_tsanEntry hown
      refine ⟨calls, ?_, by rw [if_neg hoff]; exact ⟨hrun, hne⟩⟩
      have hrun' : tsanEntry (⟨a.isRead, a.rip, a.addr, a.memSize, w.det.current⟩ : Access CurrentPtr) = some calls := hrun
      rw [Detector.calls, if_neg hoff, hrun']
      simp [hlist]
  have hgood : ∀ c ∈ calls, c.current = w.det.current ∧ c.Fits := by
    intro c hc
    split at hwhich
    · rw [hwhich] at hc
      cases hc
    · obtain ⟨hfit, hcur⟩ := fits_of_tsanEntry hown hwhich.1 c hc
      exact ⟨hcur, hfit⟩
  obtain ⟨mem, rs, hrun, h'⟩ := h.checks hfut hgood
  refine ⟨{ w with
    det := { w.det with
      shadowMem := mem
      checkingDisabled := if calls.isEmpty then w.det.checkingDisabled else 0 }
    log := w.log ++ calls.map fun c => (w.prog.cur, c)
    races := w.races ++ rs }, calls, ?_, rfl, hwhich, rfl, rfl, rfl, ⟨h'.trace, h'.one, h'.owners, h'.current, h'.owner, h'.cells, h'.made,
    h'.fits, h'.order, h'.lt, h'.complete, h'.plain, h'.sound⟩⟩
  simp [Watch.step, Detector.step, hcalls, hrun]

/-! ## One event

The tool and the program go on, and the shadow memory stays. What was checked keeps its meaning by `Complete.concat`
and `Sound.concat`. -/

/-- A strand and its `Current` object, less of the past. -/
theorem TraceOk.forget {x : Exec} (h : TraceOk x nodes futs) {past : List (Strand × Current)}
    (hpast : ∀ q ∈ past, q ∈ x.past) : TraceOk { x with past := past } nodes futs :=
  ⟨⟨h.exec.sp, fun q hq => h.exec.past q (hpast q hq)⟩, h.own, h.lists, fun q hq => h.past q (hpast q hq)⟩

/-- `cilk_enter_begin` makes no `Current` object. -/
theorem Tool.step_call_current {t t' : Tool} (h : t.step .call = some t') : t'.current = t.current := by
  simp only [Tool.step, Tool.enterBegin] at h
  split at h
  · cases h
    rfl
  · cases h

/-- **An event** goes through, and nothing is checked. -/
theorem Watched.event (h : Watched forkJoin w nodes futs) {e : Event} {s' : State}
    (hs : Serial.step rules w.prog e = some s') {forkJoin' : Prop} (hevent : forkJoin' → forkJoin ∧ isForkJoinEvent e) :
    ∃ w' nodes' futs', w.step (.event e) = some w' ∧ w'.prog = s' ∧ w'.log = w.log ∧
      w'.det.instrumentation = w.det.instrumentation ∧ w'.det.checkingDisabled = 0 ∧ Watched forkJoin' w' nodes' futs' := by
  obtain ⟨x', nodes', futs', hstep, rfl, htrace, hgrow⟩ := traceOk_step h.trace hs
  obtain ⟨prog, hprog, hstep⟩ := Option.bind_eq_some_iff.mp hstep
  obtain ⟨tool, htool, hstep⟩ := Option.bind_eq_some_iff.mp hstep
  cases hstep
  have hprog : Serial.step rules w.prog e = some prog := hprog
  have htool : w.det.tool.step e = some tool := htool
  have hserial := Step.of_step hprog
  have hone := h.one.step h.trace htrace hserial htool hgrow
  have hwf := h.trace.exec.sp.ok.wf
  have hcomplete : Complete prog.dag w.log w.races := by
    rcases step_dag hserial with ⟨hdag, -, -⟩ | ⟨es, hdag, -⟩
    · rw [hdag]
      exact h.complete
    · rw [hdag]
      exact h.complete.concat es
  have hsound : forkJoin' → Sound prog.dag w.log w.races := by
    intro hp
    have hold := h.sound (hevent hp).1
    rcases step_dag hserial with ⟨hdag, -, -⟩ | ⟨es, hdag, -⟩
    · rw [hdag]
      exact hold
    · rw [hdag]
      exact hold.concat hwf h.lt es
  have hlt : ∀ c ∈ w.log, c.1 < prog.dag.length := by
    intro c hc
    have hold := h.lt c hc
    rcases step_dag hserial with ⟨hdag, -, -⟩ | ⟨es, hdag, -⟩
    · rwa [hdag]
    · rw [hdag, List.length_append]
      exact Nat.lt_add_right _ hold
  have hplain : forkJoin' → Plain prog nodes' := fun hp => (h.plain (hevent hp).1).step (hevent hp).2 hserial hgrow
  by_cases hcall : e = .call
  · subst hcall
    have hcurrent := Tool.step_call_current htool
    have hcur : prog.cur = w.prog.cur := by
      cases hserial with
      | call _ => rfl
    refine ⟨⟨prog, { w.det with tool := tool, checkingDisabled := 0 }, w.owners, w.log, w.races⟩, nodes', futs', ?_, rfl,
      rfl, rfl, rfl, ⟨?_, hone, h.owners, ?_, ?_, h.cells, h.made, h.fits, h.order, hlt, hcomplete, hplain, hsound⟩⟩
    · simp [Watch.step, Detector.step, hprog, htool]
    · exact htrace.forget fun q hq => List.mem_append_left _ hq
    · show w.det.currents[w.det.current]? = some tool.current
      rw [hcurrent]
      exact h.current
    · show w.owners[w.det.current]? = some prog.cur
      rw [hcur]
      exact h.owner
  · have hlast : ({ w.det with
        tool := tool, currents := w.det.currents ++ [tool.current], checkingDisabled := 0 } : Detector).current =
          w.det.currents.length := by
      simp [Detector.current]
    refine ⟨⟨prog, { w.det with tool := tool, currents := w.det.currents ++ [tool.current], checkingDisabled := 0 },
      w.owners ++ [prog.cur], w.log, w.races⟩, nodes', futs', ?_, rfl, rfl, rfl, rfl,
      ⟨?_, hone, ?_, ?_, ?_, h.cells, ?_, h.fits, h.order, hlt, hcomplete, hplain, hsound⟩⟩
    · simp [Watch.step, Detector.step, hprog, htool, hcall]
    · have hpast : (w.owners ++ [prog.cur]).zip (w.det.currents ++ [tool.current]) =
          w.owners.zip w.det.currents ++ [(prog.cur, tool.current)] := by
        rw [List.zip_append h.owners]
        rfl
      show TraceOk ⟨prog, tool, (w.owners ++ [prog.cur]).zip (w.det.currents ++ [tool.current])⟩ nodes' futs'
      rw [hpast]
      exact htrace
    · simp [h.owners]
    · rw [hlast]
      simp
    · rw [hlast, ← h.owners]
      simp
    · intro c hc
      have hold := h.made c hc
      show (w.owners ++ [prog.cur])[c.2.current]? = some c.1
      rw [List.getElem?_append_left (lt_length_of_getElem? hold)]
      exact hold

end Checks

end FOrder.Rdtool
