import FOrder.Futurerd.DetectorChecks

/-!
# `Futurerd.DetectorRaces` — which races a run of the detector reports

A grain remembers the last access of each kind since it was last cleared. So whatever the reachability structure is,
a `check_access` asks about just these, and what the answers mean decides which races are reported.

The shadow memory is held against the list of the calls so far, the log. `logCell` folds the calls over one slot:
this is what the slot would remember if the calls were about strands instead of bags, and `entry_logCell` says it
without a fold, by the last call that counts. `Mirrors` says that the shadow memory remembers just that, with a bag
where the log has a strand.

`Answers` is what the detector needs to know of a reachability structure, and all it needs: MultiBags and MultiBags+
each prove it of theirs. `Answers.perform` is one call.
-/

namespace FOrder.Futurerd

open Serial (Event Strand State Ok isDep)

/-! ## What a grain remembers

Slot by slot. A call of `check_access` puts its access into the slots it reaches, a `clear` empties those of its
range, so the newest call that matters decides. The two kinds are apart: a read leaves the last write where it is. -/

section Cells

variable {P : Type}

/-- The range has block `key`. -/
def Covers (start stop key : Addr) : Prop := start.toNat / 16 ≤ key.toNat ∧ 16 * key.toNat < stop.toNat

instance (start stop key : Addr) : Decidable (Covers start stop key) := inferInstanceAs (Decidable (_ ∧ _))

/-- What a call does to one slot. -/
def Call.onCell (key : Addr) (i : Nat) (x : AccessCell P) : Call P → AccessCell P
  | .check a => if TouchesCell a key i then cellStep a x else x
  | .clear start stop => if Covers start stop key then ⟨none, none⟩ else x

/-- What a slot remembers after the calls of a log. -/
def logCell (log : List (Call P)) (key : Addr) (i : Nat) : AccessCell P := log.foldl (Call.onCell key i) ⟨none, none⟩

/-- One more call. -/
theorem logCell_concat (log : List (Call P)) (c : Call P) (key : Addr) (i : Nat) :
    logCell (log ++ [c]) key i = c.onCell key i (logCell log key i) := by
  simp [logCell]

/-- After this call an earlier access of kind `k` is not remembered. -/
def Call.Forgets (k : Bool) (key : Addr) (i : Nat) : Call P → Prop
  | .check a => TouchesCell a key i ∧ a.isRead = k
  | .clear start stop => Covers start stop key

/-- The last access of its kind to a slot that was not cleared since. -/
structure LastAt (log : List (Call P)) (key : Addr) (i : Nat) (a : Access P) : Prop where
  since : Since (fun c => ¬c.Forgets a.isRead key i) log (.check a)
  touches : TouchesCell a key i

/-- What one call does to the last access of one kind. -/
theorem entry_onCell (k : Bool) (key : Addr) (i : Nat) (x : AccessCell P) (c : Call P) :
    entry k (c.onCell key i x) = match c with
      | .check a => if TouchesCell a key i ∧ a.isRead = k then some ⟨a.current, a.rip⟩ else entry k x
      | .clear start stop => if Covers start stop key then none else entry k x := by
  cases c with
  | check a =>
      simp only [Call.onCell]
      by_cases ht : TouchesCell a key i
      · simp [ht, entry_cellStep]
      · simp [ht]
  | clear start stop =>
      simp only [Call.onCell]
      split
      · cases k <;> rfl
      · rfl

/-- **What a slot remembers.** -/
theorem entry_logCell (k : Bool) (log : List (Call P)) (key : Addr) (i : Nat) (m : MemAccess P) :
    entry k (logCell log key i) = some m ↔ ∃ a, LastAt log key i a ∧ a.isRead = k ∧ m = ⟨a.current, a.rip⟩ := by
  induction log using List.reverseRecOn with
  | nil =>
      have hnone : entry k (logCell ([] : List (Call P)) key i) = none := by
        cases k <;> rfl
      rw [hnone]
      constructor
      · intro h
        cases h
      · rintro ⟨a, ha, -⟩
        exact absurd ha.since (not_since_nil _)
  | append_singleton log c ih =>
      rw [logCell_concat, entry_onCell]
      -- whatever is kept was the last before
      have hkeep : ¬c.Forgets k key i → ((∃ a, LastAt log key i a ∧ a.isRead = k ∧ m = ⟨a.current, a.rip⟩) ↔
          ∃ a, LastAt (log ++ [c]) key i a ∧ a.isRead = k ∧ m = ⟨a.current, a.rip⟩) := by
        intro hnot
        constructor
        · rintro ⟨a, ha, rfl, hm⟩
          exact ⟨a, ⟨ha.since.concat hnot, ha.touches⟩, rfl, hm⟩
        · rintro ⟨a, ha, rfl, hm⟩
          rcases since_concat_cases ha.since with rfl | ⟨hs, -⟩
          · exact absurd ⟨ha.touches, rfl⟩ hnot
          · exact ⟨a, ⟨hs, ha.touches⟩, rfl, hm⟩
      cases c with
      | check b =>
          by_cases hb : TouchesCell b key i ∧ b.isRead = k
          · simp only [if_pos hb, Option.some.injEq]
            constructor
            · rintro rfl
              exact ⟨b, ⟨since_concat_self log _, hb.1⟩, hb.2, rfl⟩
            · rintro ⟨a, ha, rfl, hm⟩
              rcases since_concat_cases ha.since with heq | ⟨-, hnot⟩
              · cases heq
                exact hm.symm
              · exact absurd hb hnot
          · simp only [if_neg hb]
            rw [ih]
            exact hkeep hb
      | clear start stop =>
          by_cases hcov : Covers start stop key
          · simp only [if_pos hcov]
            constructor
            · intro h
              cases h
            · rintro ⟨a, ha, -⟩
              rcases since_concat_cases ha.since with heq | ⟨-, hnot⟩
              · cases heq
              · exact absurd hcov hnot
          · simp only [if_neg hcov]
            rw [ih]
            exact hkeep hcov

end Cells

/-! ## The shadow memory and the log

The detector stores the bag of a strand, and several strands may share one. So the correspondence goes one way only,
from the strand in the log to the bag in the memory, by `strands`, which has the bag of every strand so far. -/

section Mirror

variable {τ : Type} {strands strands' : List τ} {mem mem' : ShadowMem (AccessList τ)} {log : List (Call Strand)}

/-- What is stored for an access, and who made it. -/
def Stands (strands : List τ) (m : MemAccess τ) (n : MemAccess Strand) : Prop := strands[n.rd]? = some m.rd ∧ m.rip = n.rip

/-- The shadow memory remembers what the log says. -/
def Mirrors (strands : List τ) (mem : ShadowMem (AccessList τ)) (log : List (Call Strand)) : Prop :=
  ∀ key i k, Option.Rel (Stands strands) (entry k (cellAt ⟨none, none⟩ mem key i)) (entry k (logCell log key i))

/-- Nothing is remembered at the start. -/
theorem mirrors_init : Mirrors strands .empty [] := by
  intro key i k
  have hempty : cellAt (⟨none, none⟩ : AccessCell τ) .empty key i = ⟨none, none⟩ := rfl
  rw [hempty]
  cases k
  · exact .none
  · exact .none

/-- An access in the shadow memory is in the log. -/
theorem stands_left {x : Option (MemAccess τ)} {y : Option (MemAccess Strand)} (h : Option.Rel (Stands strands) x y)
    {m : MemAccess τ} (hx : x = some m) : ∃ n, y = some n ∧ Stands strands m n := by
  subst hx
  cases h with
  | some hm => exact ⟨_, rfl, hm⟩

/-- An access in the log is in the shadow memory. -/
theorem stands_right {x : Option (MemAccess τ)} {y : Option (MemAccess Strand)} (h : Option.Rel (Stands strands) x y)
    {n : MemAccess Strand} (hy : y = some n) : ∃ m, x = some m ∧ Stands strands m n := by
  subst hy
  cases h with
  | some hm => exact ⟨_, rfl, hm⟩

/-- Strands are numbered for good. -/
theorem stands_extend (us : List τ) {x : Option (MemAccess τ)} {y : Option (MemAccess Strand)}
    (h : Option.Rel (Stands strands) x y) : Option.Rel (Stands (strands ++ us)) x y := by
  cases h with
  | none => exact .none
  | @some m n hm =>
      have hlt : n.rd < strands.length := (List.getElem?_eq_some_iff.mp hm.1).1
      refine .some ⟨?_, hm.2⟩
      rw [List.getElem?_append_left hlt]
      exact hm.1

/-- New strands change nothing. -/
theorem Mirrors.extend (h : Mirrors strands mem log) (us : List τ) : Mirrors (strands ++ us) mem log :=
  fun key i k => stands_extend us (h key i k)

/-- What is remembered can be asked about: each bag there was stored for some strand. -/
theorem Mirrors.known (h : Mirrors strands mem log) (key : Addr) (i : Nat) :
    KnownCell (fun u => ∃ j : Nat, strands[j]? = some u) (cellAt ⟨none, none⟩ mem key i) := by
  have hentry : ∀ k m, entry k (cellAt ⟨none, none⟩ mem key i) = some m → ∃ j : Nat, strands[j]? = some m.rd := by
    intro k m hm
    obtain ⟨n, -, hs⟩ := stands_left (h key i k) hm
    exact ⟨n.rd, hs.1⟩
  exact ⟨fun m hm => hentry false m hm, fun m hm => hentry true m hm⟩

/-- What a slot remembers is the last access of its kind in the log. -/
theorem Mirrors.remembered (h : Mirrors strands mem log) {key : Addr} {i : Nat} {k : Bool} {m : MemAccess τ}
    (hm : entry k (cellAt ⟨none, none⟩ mem key i) = some m) :
    ∃ b, LastAt log key i b ∧ b.isRead = k ∧ strands[b.current]? = some m.rd := by
  obtain ⟨n, hn, hs⟩ := stands_left (h key i k) hm
  obtain ⟨b, hb, hk, rfl⟩ := (entry_logCell k log key i n).mp hn
  exact ⟨b, hb, hk, hs.1⟩

/-- And the last access of its kind in the log is what a slot remembers. -/
theorem Mirrors.stored (h : Mirrors strands mem log) {key : Addr} {i : Nat} {b : Access Strand}
    (hb : LastAt log key i b) :
    ∃ m, entry b.isRead (cellAt ⟨none, none⟩ mem key i) = some m ∧ strands[b.current]? = some m.rd := by
  obtain ⟨m, hm, hs⟩ := stands_right (h key i b.isRead) ((entry_logCell _ log key i _).mpr ⟨b, hb, rfl, rfl⟩)
  exact ⟨m, hm, hs.1⟩

/-- An access of the current strand. -/
theorem Mirrors.check (h : Mirrors strands mem log) {a : Access Unit} {cur : Strand} {u : τ}
    (hu : strands[cur]? = some u)
    (hcell : ∀ key i, cellAt ⟨none, none⟩ mem' key i = if TouchesCell (Access.by a u) key i
      then cellStep (Access.by a u) (cellAt ⟨none, none⟩ mem key i) else cellAt ⟨none, none⟩ mem key i) :
    Mirrors strands mem' (log ++ [.check (Access.by a cur)]) := by
  intro key i k
  have hold := h key i k
  rw [hcell, logCell_concat, entry_onCell]
  have hsame : TouchesCell (Access.by a u) key i ↔ TouchesCell (Access.by a cur) key i := Iff.rfl
  by_cases ht : TouchesCell (Access.by a u) key i
  · have ht' := hsame.mp ht
    rw [if_pos ht, entry_cellStep]
    simp only [ht', true_and]
    have hread : (Access.by a u).isRead = (Access.by a cur).isRead := rfl
    rw [hread]
    split
    · exact .some ⟨hu, rfl⟩
    · exact hold
  · have ht' : ¬(TouchesCell (Access.by a cur) key i ∧ (Access.by a cur).isRead = k) := fun hc => ht (hsame.mpr hc.1)
    rw [if_neg ht]
    simp only [if_neg ht']
    exact hold

/-- A range that starts and ends with a block is forgotten. -/
theorem Mirrors.clear (h : Mirrors strands mem log) {start stop : Addr} {fuel : Nat} (hstart : start.toNat % 16 = 0)
    (hstop : stop.toNat % 16 = 0) (hle : start.toNat ≤ stop.toNat)
    (hrun : ShadowMem.clearLoop fuel mem start stop = some mem') : Mirrors strands mem' (log ++ [.clear start stop]) := by
  obtain ⟨-, hfind⟩ := ShadowMem.clearLoop_spec (by omega) hstop hle hrun
  intro key i k
  rw [logCell_concat, entry_onCell]
  by_cases hcov : Covers start stop key
  · have hgone : cellAt (⟨none, none⟩ : AccessCell τ) mem' key i = ⟨none, none⟩ := by
      simp [cellAt, hfind key, show _ ∧ _ from hcov]
    rw [hgone]
    simp only [if_pos hcov]
    cases k
    · exact .none
    · exact .none
  · have hkept : cellAt (⟨none, none⟩ : AccessCell τ) mem' key i = cellAt ⟨none, none⟩ mem key i := by
      simp [cellAt, hfind key, show ¬(_ ∧ _) from hcov]
    rw [hkept]
    simp only [if_neg hcov]
    exact h key i k

end Mirror

/-! ## One call

A `check_access` asks about what the slot remembers, and so by `Mirrors` about the last access in the log. An answer
about a bag is an answer about the strand whose access it was stored for. -/

variable {σ φ ψ τ : Type}

/-- What the detector needs of a reachability structure that keeps `I`: it answers about each strand so far, `means`
    says what an answer does, and a yes is a path. -/
structure Answers (ds : ReachDs σ φ ψ τ) (means : State → Strand → Bool → Prop) (I : Exec σ φ ψ τ → Prop) : Prop where
  ok : ∀ {x}, I x → Ok x.prog
  cur : ∀ {x}, I x → x.prog.cur + 1 = x.prog.dag.length
  length : ∀ {x}, I x → x.strands.length = x.prog.dag.length
  frames : ∀ {x}, I x → x.tool.sstack.length = x.prog.frames.length
  active : ∀ {x}, I x → ∃ u, Driver.active ds x.tool = some u ∧ x.strands[x.prog.cur]? = some u
  query : ∀ {x i}, I x → i < x.prog.dag.length →
    ∃ x' answer, Exec.query ds x i = some (x', answer) ∧ I x' ∧ means x.prog i answer
  yes : ∀ {s i}, means s i true → s.dag.Reach isDep i s.cur

variable {ds : ReachDs σ φ ψ τ} {means : State → Strand → Bool → Prop} {I : Exec σ φ ψ τ → Prop}

/-- A query about a strand is a question about its bag. -/
theorem query_eq {x : Exec σ φ ψ τ} {j : Strand} {u : τ} (hj : x.strands[j]? = some u) :
    Exec.query ds x j = (Detector.ask ds x.tool u).map fun r => ({ x with tool := r.1 }, r.2) := by
  unfold Exec.query Detector.ask
  rw [hj]
  simp only [Option.bind_eq_bind, Option.bind_some]
  cases Driver.precedesNow ds x.tool u <;> rfl

/-- The structure can be asked in the middle of a check. A bag may have been stored for several strands, and the
    answer is about each of them. -/
theorem Answers.asks (h : Answers ds means I) (prog : State) (strands : List τ) :
    Asks (Detector.ask ds) (fun d => I ⟨prog, d, strands⟩) (fun u => ∃ j : Nat, strands[j]? = some u)
      (fun u a => ∀ j : Nat, strands[j]? = some u → means prog j a) where
  answer d u hI hu := by
    obtain ⟨j, hj⟩ := hu
    have hlt : ∀ {k : Nat}, strands[k]? = some u → k < prog.dag.length := by
      intro k hk
      rw [← h.length hI]
      exact (List.getElem?_eq_some_iff.mp hk).1
    obtain ⟨x', answer, hquery, hI', -⟩ := h.query hI (hlt hj)
    rw [query_eq (show (Exec.mk prog d strands).strands[j]? = some u from hj)] at hquery
    obtain ⟨⟨d', a⟩, hrun, heq⟩ := Option.map_eq_some_iff.mp hquery
    cases heq
    refine ⟨d', a, hrun, hI', ?_⟩
    -- the answer is the same for all strands that store `u`
    intro k hk
    obtain ⟨x', b, hquery, -, hmeans⟩ := h.query hI (hlt hk)
    rw [query_eq (show (Exec.mk prog d strands).strands[k]? = some u from hk), hrun] at hquery
    cases hquery
    exact hmeans

section Slot

variable {holds : τ → Bool → Prop} {key addr rip : Addr} {i : Nat} {races : List RaceReport}

/-- A report says that there was a last access, and that the answer about it was no. -/
theorem checked_sound {raceType : RaceType} {last : Option (MemAccess τ)}
    (h : Checked holds key addr rip raceType i last races) {r : RaceReport} (hr : r ∈ races) :
    r.grain = grainOf key i ∧ ∃ m, last = some m ∧ holds m.rd false := by
  unfold Checked at h
  cases last with
  | none =>
      rw [show races = [] from h] at hr
      cases hr
  | some m =>
      obtain ⟨a, hholds, rfl⟩ := h
      cases a with
      | true => simp at hr
      | false =>
          obtain rfl : r = ⟨grainOf key i, addr, m.rip, rip, raceType⟩ := by simpa using hr
          exact ⟨rfl, m, rfl, hholds⟩

/-- If no answer about the last access can be yes, there is a report. -/
theorem checked_complete {raceType : RaceType} {m : MemAccess τ}
    (h : Checked holds key addr rip raceType i (some m) races) (hno : ¬holds m.rd true) :
    ∃ r ∈ races, r.grain = grainOf key i := by
  obtain ⟨a, hholds, rfl⟩ := h
  cases a with
  | true => exact absurd hholds hno
  | false => exact ⟨_, List.mem_singleton_self _, rfl⟩

/-- A report at a slot is about its grain, and about a remembered access that is in conflict. -/
theorem slotChecked_sound {isRead : Bool} {c : AccessCell τ} (h : SlotChecked holds key addr rip isRead i c races)
    {r : RaceReport} (hr : r ∈ races) :
    r.grain = grainOf key i ∧ ∃ k m, entry k c = some m ∧ (k = false ∨ isRead = false) ∧ holds m.rd false := by
  obtain ⟨r₁, r₂, hwriter, hreader, rfl⟩ := h
  rcases List.mem_append.mp hr with hr | hr
  · obtain ⟨hgrain, m, hm, hholds⟩ := checked_sound hwriter hr
    exact ⟨hgrain, false, m, hm, Or.inl rfl, hholds⟩
  · cases isRead with
    | true =>
        simp only [if_true] at hreader
        rw [hreader] at hr
        cases hr
    | false =>
        obtain ⟨hgrain, m, hm, hholds⟩ := checked_sound (by simpa using hreader) hr
        exact ⟨hgrain, true, m, hm, Or.inr rfl, hholds⟩

/-- A remembered access that is in conflict is reported, if it cannot be said to precede. -/
theorem slotChecked_complete {isRead : Bool} {c : AccessCell τ} (h : SlotChecked holds key addr rip isRead i c races)
    {k : Bool} {m : MemAccess τ} (hm : entry k c = some m) (hconflict : k = false ∨ isRead = false)
    (hno : ¬holds m.rd true) : ∃ r ∈ races, r.grain = grainOf key i := by
  obtain ⟨r₁, r₂, hwriter, hreader, rfl⟩ := h
  cases k with
  | false =>
      have hm : c.writer = some m := hm
      rw [hm] at hwriter
      obtain ⟨r, hr, hgrain⟩ := checked_complete hwriter hno
      exact ⟨r, List.mem_append_left _ hr, hgrain⟩
  | true =>
      have hm : c.reader = some m := hm
      have hwrite : isRead = false := hconflict.resolve_left (by simp)
      subst hwrite
      rw [hm] at hreader
      obtain ⟨r, hr, hgrain⟩ := checked_complete (by simpa using hreader) hno
      exact ⟨r, List.mem_append_right _ hr, hgrain⟩

end Slot

/-- What a `check_access` reports, after the calls `log`: the remembered accesses that it conflicts with and that are
    said to be parallel. -/
structure Reports (means : State → Strand → Bool → Prop) (prog : State) (log : List (Call Strand)) (a : Access Strand)
    (races : List RaceReport) : Prop where
  sound : ∀ r ∈ races, ∃ key i b, TouchesCell a key i ∧ r.grain = grainOf key i ∧ LastAt log key i b ∧
    (b.isRead = false ∨ a.isRead = false) ∧ means prog b.current false
  complete : ∀ key i b, TouchesCell a key i → LastAt log key i b → (b.isRead = false ∨ a.isRead = false) →
    ¬means prog b.current true → ∃ r ∈ races, r.grain = grainOf key i

/-- Accesses of whole grains, or of less; ranges of whole blocks inside the directory. -/
def Call.Good {P : Type} : Call P → Prop
  | .check a => Aligned a.addr a.memSize ∨ a.memSize = 1 ∨ a.memSize = 2
  | .clear start stop => start.toNat % 16 = 0 ∧ stop.toNat % 16 = 0 ∧ start.toNat ≤ stop.toNat ∧ stop.toNat ≤ 2 ^ 48

/-- The grains of such an access are in one block. -/
theorem Call.Good.fits {P : Type} {a : Access P} (h : (Call.check a).Good) :
    addrToMemIndex a.addr + sizeToNumGrains a.memSize ≤ numSlots := by
  have hlt := addrToMemIndex_lt a.addr
  rcases h with h | h | h
  · exact aligned_start_add_grains h
  · rw [h, sizeToNumGrains_eq]
    omega
  · rw [h, sizeToNumGrains_eq]
    omega

/-- A multiple of 16 stays where it is. -/
theorem alignByNext_of_mod {stop : Addr} (h : stop.toNat % 16 = 0) : ShadowMem.alignByNextMaxGrainSize stop = stop := by
  have hzero : stop &&& 15#64 = 0 := by
    apply BitVec.eq_of_toNat_eq
    rw [BitVec.toNat_and]
    exact (Nat.and_two_pow_sub_one_eq_mod stop.toNat 4).trans h
  show (stop + 15#64) &&& ~~~15#64 = stop
  rw [BitVec.add_eq_or_of_and_eq_zero _ _ hzero]
  ext i hi
  have hbit := congrArg (fun x => x.getLsbD i) hzero
  simp only [BitVec.getLsbD_and] at hbit
  simp only [BitVec.getElem_and, BitVec.getElem_or, BitVec.getElem_not, BitVec.getLsbD_eq_getElem hi] at hbit ⊢
  cases hs : stop[i] <;> cases hm : (15#64)[i] <;> simp_all

/-- The result is a multiple of 16, for every address. -/
theorem alignByNext_mod (addr : Addr) : (ShadowMem.alignByNextMaxGrainSize addr).toNat % 16 = 0 := by
  have hzero : ShadowMem.alignByNextMaxGrainSize addr &&& 15#64 = 0 := by
    show ((addr + 15#64) &&& ~~~15#64) &&& 15#64 = 0
    rw [BitVec.and_assoc, BitVec.and_comm (~~~15#64), BitVec.and_not_self]
    exact BitVec.and_zero
  have hmask := congrArg BitVec.toNat hzero
  rw [BitVec.toNat_and] at hmask
  exact (Nat.and_two_pow_sub_one_eq_mod _ 4).symm.trans hmask

/-- It is less than a block further. -/
theorem alignByNext_le (addr : Addr) (h : addr.toNat + 15 < 2 ^ 64) :
    (ShadowMem.alignByNextMaxGrainSize addr).toNat ≤ addr.toNat + 15 := by
  show ((addr + 15#64) &&& ~~~15#64).toNat ≤ _
  have hadd : (addr + 15#64).toNat = addr.toNat + 15 := by
    rw [BitVec.toNat_add]
    exact Nat.mod_eq_of_lt h
  rw [BitVec.toNat_and, hadd]
  exact Nat.and_le_left

/-- Rounding up to the next multiple of 16. -/
theorem alignByNext_toNat (addr : Addr) (h : addr.toNat + 15 < 2 ^ 64) :
    (ShadowMem.alignByNextMaxGrainSize addr).toNat = (addr.toNat + 15) / 16 * 16 := by
  have hadd : (addr + 15#64).toNat = addr.toNat + 15 := by
    rw [BitVec.toNat_add]
    exact Nat.mod_eq_of_lt h
  have hlow : ((addr + 15#64) &&& 15#64).toNat = (addr.toNat + 15) % 16 := by
    rw [BitVec.toNat_and, hadd]
    exact Nat.and_two_pow_sub_one_eq_mod _ 4
  -- the bits that are kept and the bits that are dropped
  have hsplit : ((addr + 15#64) &&& ~~~15#64) + ((addr + 15#64) &&& 15#64) = addr + 15#64 := by
    rw [BitVec.add_eq_or_of_and_eq_zero, ← BitVec.and_or_distrib_left]
    · exact BitVec.and_allOnes
    · rw [BitVec.and_assoc, ← BitVec.and_assoc (~~~15#64), BitVec.and_comm (~~~15#64), BitVec.and_assoc,
        BitVec.and_comm (~~~15#64), BitVec.and_not_self]
      simp
  have hsum := congrArg BitVec.toNat hsplit
  rw [BitVec.toNat_add, hadd, hlow] at hsum
  have hmod := alignByNext_mod addr
  have hle := alignByNext_le addr h
  change ((ShadowMem.alignByNextMaxGrainSize addr).toNat + _) % _ = _ at hsum
  omega

/-- What the detector knows, next to a program in state `prog`. -/
structure Sees (I : Exec σ φ ψ τ → Prop) (prog : State) (strands : List τ) (d : Detector σ φ ψ τ)
    (log : List (Call Strand)) : Prop where
  reach : I ⟨prog, d.driver, strands⟩
  cells : Mirrors strands d.smem log

/-- The reports of a call: none for a `clear`. -/
def Call.Reports (means : State → Strand → Bool → Prop) (prog : State) (log : List (Call Strand)) (races : List RaceReport) :
    Call Strand → Prop
  | .check a => Futurerd.Reports means prog log a races
  | .clear _ _ => races = []

section Perform

variable {prog : State} {strands : List τ} {d : Detector σ φ ψ τ} {log : List (Call Strand)}

/-- **One call** does not fail. -/
theorem Answers.perform (h : Answers ds means I) (hsees : Sees I prog strands d log) {c : Call Unit} (hc : c.Good) :
    ∃ d' races, Detector.perform ds d c = some (d', races) ∧ d'.flags = d.flags ∧ d'.cap = d.cap ∧
      Sees I prog strands d' (log ++ [c.by prog.cur]) ∧ (c.by prog.cur).Reports means prog log races := by
  cases c with
  | check a =>
      obtain ⟨u, hactive, hu⟩ := h.active hsees.reach
      have hactive : Driver.active ds d.driver = some u := hactive
      have hu : strands[prog.cur]? = some u := hu
      obtain ⟨driver, smem, races, out, hrun, hI, hcell, hrep, hmem⟩ :=
        checkAsking_spec (a := Access.by a u) (h.asks prog strands) (Call.Good.fits hc) hsees.reach hsees.cells.known
      refine ⟨{ d with driver := driver, smem := smem }, races, by simp [Detector.perform, hactive, hrun], rfl, rfl,
        ⟨hI, hsees.cells.check hu hcell⟩, ?_, ?_⟩
      · intro r hr
        obtain ⟨i, ht, hr⟩ := (hmem r).mp hr
        obtain ⟨hgrain, k, m, hm, hconflict, hholds⟩ := slotChecked_sound (hrep i ht) hr
        obtain ⟨b, hb, rfl, hstrand⟩ := hsees.cells.remembered hm
        exact ⟨_, i, b, ht, hgrain, hb, hconflict, hholds _ hstrand⟩
      · intro key i b ht hb hconflict hno
        obtain rfl : key = addrToKey a.addr := ht.1
        obtain ⟨m, hm, hstrand⟩ := hsees.cells.stored hb
        have hnot : ¬∀ j : Nat, strands[j]? = some m.rd → means prog j true := fun hyes => hno (hyes _ hstrand)
        obtain ⟨r, hr, hgrain⟩ := slotChecked_complete (hrep i ht) hm hconflict hnot
        exact ⟨r, (hmem r).mpr ⟨i, ht, hr⟩, hgrain⟩
  | clear start stop =>
      obtain ⟨hstart, hstop, hle, hdir⟩ := hc
      have hsub : (stop - start).toNat = stop.toNat - start.toNat := BitVec.toNat_sub_of_le hle
      have hfuel : Detector.clearFuel start stop = (stop.toNat - start.toNat) / 4 + 1 := by
        rw [Detector.clearFuel, hsub]
        rfl
      obtain ⟨smem, hrun⟩ := ShadowMem.clearLoop_returns (m := d.smem)
        (show start.toNat + 4 * ((stop.toNat - start.toNat) / 4) = stop.toNat by omega) hdir
      rw [← hfuel] at hrun
      refine ⟨{ d with smem := smem }, [], ?_, rfl, rfl, ⟨hsees.reach, hsees.cells.clear hstart hstop hle hrun⟩, rfl⟩
      have hclear : ShadowMem.clear (Detector.clearFuel start stop) d.smem start stop = some smem := by
        unfold ShadowMem.clear
        rw [if_pos ⟨alignByNext_of_mod hstop, hle⟩]
        exact hrun
      simp [Detector.perform, hclear]

end Perform

end FOrder.Futurerd
