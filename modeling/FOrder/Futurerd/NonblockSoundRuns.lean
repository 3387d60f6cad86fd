import FOrder.Futurerd.NonblockSoundSync

/-!
# `Futurerd.NonblockSoundRuns` — MultiBags+ misses no race

`Told` holds at the start and after every event, whatever is asked on the way: it says nothing of the bags and of
what accesses store. A yes of a query comes from the bags, from a set that stands for the running strand, or from an
entry of the matrix, and each of them is a path.

The induction over runs is `told_of_progRun`, beside `Inv` of `NonblockRuns`. A step of it takes what an event does
to the sets (`Acts`) and applies the lemma of the event from the two modules before: `Acts.told`. Queries write to
nothing but the bags, so they leave the sets alone (`SameSets`).
-/

namespace FOrder.Futurerd.Nonblock

open Serial (Event FutId Strand Step EdgeKind Ok StackOk isDep isSp isDep_of_isSp)

variable {σ σ' σ₁ : State} {m : General} {d : Dag EdgeKind} {items : List Item} {done done' : Nat → Prop}

/-! ## What the sets are made of

Some callbacks, and every query, write to the bags or to what accesses store. `Told` reads neither, so it holds in any
state with the same sets. -/

/-- The same sets: only the bags, the strands' own bags or the running strand may differ. -/
structure SameSets (σ σ' : State) : Prop where
  find : ∀ x, σ'.find x = σ.find x
  id : ∀ x, (σ'.node x).id = (σ.node x).id
  attPred : ∀ x, (σ'.node x).attPred = (σ.node x).attPred
  attSucc : ∀ x, (σ'.node x).attSucc = (σ.node x).attSucc

namespace SameSets

/-- What is attached. -/
theorem attached (h : SameSets σ σ') (x : Nat) : σ'.attached x = σ.attached x := by
  unfold State.attached State.setOf
  rw [h.find, h.id]

/-- What answers. -/
theorem answering (h : SameSets σ σ') (x : Nat) : Nonblock.answering σ' x = Nonblock.answering σ x := by
  unfold Nonblock.answering State.setOf
  rw [h.attached, h.find, h.attSucc]

/-- What stands for what. -/
theorem stands (h : SameSets σ σ') {u x : Nat} (hu : Stands σ' u x) : Stands σ u x := by
  unfold Stands at hu ⊢
  rw [h.find, h.answering] at hu
  exact hu

/-- And so what the entries are worth. -/
theorem sound (h : SameSets σ σ') (hs : Sound d m σ) : Sound d m σ' := by
  refine hs.sets h.id ?_ ?_
  · intro x y _ hy
    rw [h.attSucc] at hy
    exact Or.inl hy
  · intro u x hu
    rw [h.answering] at hu
    exact Or.inl hu

/-- Segments stay ahead. -/
theorem ahead (h : SameSets σ σ') {a e : Nat} (ha : Ahead d done σ a e) : Ahead d done σ' a e := by
  refine ⟨⟨?_, ?_, ?_⟩, ?_, ?_⟩
  · rw [h.find]
    exact ha.start
  · intro hfree p hp u hu
    rw [h.attached] at hfree
    rw [h.answering] at hu
    unfold State.setOf at hp
    rw [h.find, h.attPred] at hp
    exact ha.pred hfree p hp u hu
  · intro hfree z hza hze
    rw [h.attached] at hfree
    rw [h.find, h.find]
    exact ha.whole hfree z hza hze
  · intro u hu
    rw [h.find] at hu
    exact ha.before u (h.stands hu)
  · intro x hx
    rw [h.find, h.find, h.find]
    exact ha.apart x hx

/-- And all of it stays told. -/
theorem told (h : SameSets σ σ') {w : Nat} (ht : Told d done m σ items w) : Told d done m σ' items w := by
  refine ⟨h.sound ht.sound, h.ahead ht.top, fun s hs => h.ahead (ht.lower s hs), ht.forked, ?_, ?_⟩
  · intro fork hmem
    rw [h.attached]
    exact ht.creators fork hmem
  · intro x hx
    rw [h.attached, h.find]
    obtain ⟨hatt, hbefore⟩ := ht.done x hx
    refine ⟨hatt, ?_⟩
    intro u hu
    rw [h.answering] at hu
    exact hbefore u hu

end SameSets

/-- The bags are nothing to the sets. -/
theorem sameSets_bags (sp : Bags) : SameSets σ { σ with mSp := sp } :=
  ⟨fun _ => rfl, fun _ => rfl, fun _ => rfl, fun _ => rfl⟩

/-- Nor is the bag of a strand, or which strand runs. -/
theorem sameSets_setCurrent {x : Nat} (hx : x < σ.nodes.length) (bag : Option Nat) :
    SameSets σ (σ.setCurrent x bag) := by
  have hnode := State.node_setCurrent hx bag
  refine ⟨fun _ => rfl, ?_, ?_, ?_⟩
  · intro z
    rw [hnode]
    split
    · rename_i hz
      rw [hz]
    · rfl
  · intro z
    rw [hnode]
    split
    · rename_i hz
      rw [hz]
    · rfl
  · intro z
    rw [hnode]
    split
    · rename_i hz
      rw [hz]
    · rfl

/-- Fewer futures have finished than said. -/
theorem Told.fewer {w : Nat} (ht : Told d done m σ items w) (hdone : ∀ x, done' x → done x) :
    Told d done' m σ items w := by
  have hfewer : ∀ {a e : Nat}, Ahead d done σ a e → Ahead d done' σ a e := fun ha =>
    ⟨ha.toRooted, ha.before, fun x hx => ha.apart x (hdone x hx)⟩
  exact ⟨ht.sound, hfewer ht.top, fun s hs => hfewer (ht.lower s hs), ht.forked, ht.creators,
    fun x hx => ht.done x (hdone x hx)⟩

/-- The calls of a new attached set. -/
theorem newOps_run {u : Nat} {m' : General} {more : List General.Op}
    (h : (newOps σ u ++ more).foldlM General.step m = some m') :
    ∃ m₂, m.addNode.1.addEdge (σ.setOf u).id σ.mR.data.length = some m₂ ∧ more.foldlM General.step m₂ = some m' := by
  unfold newOps at h
  rw [List.cons_append, List.foldlM_cons] at h
  obtain ⟨m₁, hadd, h⟩ := Option.bind_eq_some_iff.mp h
  obtain rfl : m.addNode.1 = m₁ := Option.some.inj hadd
  rw [List.singleton_append, List.foldlM_cons] at h
  exact Option.bind_eq_some_iff.mp h

/-! ## One event

The program's step adds a strand to the dag, moves the top of the stack, and finishes a future or none; `Acts` says
what the tool has done meanwhile. The proof goes by `Acts`, and in each case the lemma of the event gives `Told` for
the new dag, once it has been shown that the new strand's edges are those that the lemma wants. -/

/-- A future that has just been made has not finished. -/
theorem finished_of_append {futs : List (Option Serial.Finished)} {fut : FutId} {fin : Serial.Finished}
    (h : (futs ++ [none])[fut]? = some (some fin)) : futs[fut]? = some (some fin) := by
  rcases Nat.lt_trichotomy fut futs.length with hlt | rfl | hgt
  · rw [List.getElem?_append_left hlt] at h
    exact h
  · simp at h
  · rw [List.getElem?_eq_none (by simp; omega)] at h
    cases h

/-- The last strands of the futures that have finished. -/
def LastOf (futs : List (Option Serial.Finished)) (x : Strand) : Prop :=
  ∃ (fut : FutId) (fin : Serial.Finished), futs[fut]? = some (some fin) ∧ fin.last = x

/-- A create finishes no future. -/
theorem lastOf_create {futs : List (Option Serial.Finished)} {x : Strand} (h : LastOf (futs ++ [none]) x) :
    LastOf futs x := by
  obtain ⟨fut, fin, hfin, hx⟩ := h
  exact ⟨fut, fin, finished_of_append hfin, hx⟩

/-- A finish finishes one. -/
theorem lastOf_finish {futs : List (Option Serial.Finished)} {fut : FutId} {fin : Serial.Finished} {x : Strand}
    (h : LastOf (futs.set fut (some fin)) x) : LastOf futs x ∨ x = fin.last := by
  obtain ⟨fut', fin', hfin, rfl⟩ := h
  rw [List.getElem?_set] at hfin
  split at hfin
  · split at hfin
    · cases hfin
      exact Or.inr rfl
    · cases hfin
  · exact Or.inl ⟨fut', fin', hfin, rfl⟩

/-- What `attachify` leaves for the rest of a create or a get. -/
theorem Told.attachified {p : Nat} {m' : General} {ops : List General.Op}
    (ht : Told d done σ.mR σ items σ.tCurrent) (hwf : d.WF) (hok : NodesOk σ) (hok₁ : NodesOk σ₁)
    (hl : Live σ items σ.tCurrent) (h : Attachified σ σ₁ σ.tCurrent) (hp : (σ.setOf σ.tCurrent).attPred = some p)
    (hrun : (attachOps σ σ.tCurrent p ++ ops).foldlM General.step σ.mR = some m') (hmade : General.made ops = 1)
    (hsize : m'.data.length ≤ 2 ^ 64) (hfree : σ₁.mR.data.length < m'.data.length) :
    ∃ m₁, Told d done m₁ σ₁ items σ₁.tCurrent ∧ m₁.data.length = σ₁.mR.data.length ∧ m₁.data.length < 2 ^ 64 ∧
      ops.foldlM General.step m₁ = some m' := by
  rw [List.foldlM_append] at hrun
  obtain ⟨m₁, hfirst, hrest⟩ := Option.bind_eq_some_iff.mp hrun
  have hlen := General.length_foldlM hfirst
  have hlen' := General.length_foldlM hrest
  have hdata := h.length_data (p := p) hok hok₁ (by omega)
  refine ⟨m₁, ?_, by omega, by omega, hrest⟩
  rw [h.tCurrent]
  exact ht.attachify hwf hok hok₁ (by omega) rfl hl h hp hfirst

section Event

variable {s s' : Serial.State}

/-- A spawned child or a future that ends has joined its own children. -/
theorem items_ended {f : Serial.Frame} {rest : List Serial.Frame} (hst : StackOk s) (hf : s.frames = f :: rest)
    (hu : f.unsynced = false) : Nonblock.items (f :: rest) = kindItems f.kind ++ Nonblock.items rest := by
  have hch : f.children = [] := hst.synced f (by rw [hf]; simp) hu
  simp [Nonblock.items, forksOf, hch]

/-- The edges of a sync that are edges of the computation. -/
theorem syncEdges_dep (cur : Strand) (f : Serial.Frame) (x : Nat) :
    (∃ e ∈ Serial.syncEdges cur f, isDep e.kind ∧ e.src = x) ↔ x = cur ∨ ∃ y ∈ forksOf f, y.2 = x := by
  unfold Serial.syncEdges forksOf
  constructor
  · rintro ⟨e, he, hk, rfl⟩
    rw [List.cons_append, List.mem_cons, List.mem_append] at he
    rcases he with rfl | he | he
    · exact Or.inl rfl
    · obtain ⟨c, hc, rfl⟩ := List.mem_map.mp he
      exact Or.inr ⟨(c.fork, c.last), List.mem_map.mpr ⟨c, hc, rfl⟩, rfl⟩
    · -- the edges of created futures are none
      obtain ⟨c, -, rfl⟩ := List.mem_map.mp he
      exact absurd rfl hk
  · rintro (rfl | ⟨y, hy, rfl⟩)
    · exact ⟨⟨x, .sp⟩, List.mem_cons_self, show isDep .sp by decide, rfl⟩
    · obtain ⟨c, hc, rfl⟩ := List.mem_map.mp hy
      refine ⟨⟨c.last, .sp⟩, ?_, show isDep .sp by decide, rfl⟩
      exact List.mem_cons_of_mem _ (List.mem_append_left _ (List.mem_map.mpr ⟨c, hc, rfl⟩))

/-- **One event keeps what the sets stand for.** By the event; the lemmas of the two modules before are for the
    sets, and what is left to show here is how the dag, the stack and the finished futures of the program go along.
    -/
theorem Acts.told {e : Event} (h : Acts s σ e σ') (hs : Step rules s e s') (hsok : Ok s) (hst : StackOk s)
    (hok : NodesOk σ) (hok' : NodesOk σ') (hl : Live σ (Nonblock.items s.frames) σ.tCurrent)
    (hcur : σ.tCurrent + 1 = σ.nodes.length) (htcur : σ.tCurrent = s.cur) (hlen : σ.nodes.length = s.dag.length)
    (hlen' : σ'.nodes.length = s'.dag.length) (hroom : σ.nodes.length + 1 < 2 ^ 64)
    (ht : Told s.dag (LastOf s.futures) σ.mR σ (Nonblock.items s.frames) s.cur) :
    Told s'.dag (LastOf s'.futures) σ'.mR σ' (Nonblock.items s'.frames) s'.cur := by
  have hwf := hsok.wf
  have hdata' := hok'.data_le
  rw [← htcur] at ht
  -- a strand that starts has a node of its own
  have hstarts : ∀ {es : List (InEdge EdgeKind)}, σ'.nodes.length = (s.dag ++ [es]).length → σ ≠ σ' := by
    rintro es hnew rfl
    rw [List.length_append, List.length_singleton] at hnew
    omega
  cases hs with
  | @call f rest hf =>
      cases h with
      | idle =>
          rw [hf, htcur] at ht
          exact ht
  | @ret f g rest hf hk hu =>
      cases h with
      | idle =>
          rw [hf, items_ended hst hf hu, hk, htcur] at ht
          exact ht
  | @spawn f rest hf hk =>
      cases h with
      | idle => exact absurd rfl (hstarts hlen')
      | @spawn _ sp bag hnew hadv =>
          rw [hf] at hl ht
          have hR : σ'.mR = σ.mR := (Option.some.inj hadv.did.run).symm
          have htold := ht.spawn hwf hok hl hcur hlen.symm hnew
          rw [htcur, hlen] at htold
          rw [hR]
          exact htold
  | @spawnRet f g rest fork hf hk hu =>
      cases h with
      | idle => exact absurd rfl (hstarts hlen')
      | @spawnRet _ sp bag f' rest' fork' hf' hk' hnew hadv =>
          rw [hf] at hf'
          cases hf'
          rw [hk] at hk'
          cases hk'
          rw [hf, items_ended hst hf hu, hk] at hl ht
          have hR : σ'.mR = σ.mR := (Option.some.inj hadv.did.run).symm
          have htold := ht.joined hwf hok hl hcur hlen.symm hnew
          rw [htcur, hlen] at htold
          rw [hR]
          exact htold
  | @sync f rest hf hk hu =>
      cases h with
      | idle => exact absurd rfl (hstarts hlen')
      | @sync σ₂ _ sp bag ops f' rest' hf' hu' hsync hσ' hadv =>
          rw [hf] at hf'
          cases hf'
          rw [hf] at hl ht
          have hfr := hsok.frames
          rw [hf] at hfr
          have htold : Told (s.dag ++ [Serial.syncEdges s.cur f]) (LastOf s.futures) σ₂.mR σ₂
              (kindItems f.kind ++ Nonblock.items rest) σ.nodes.length := by
            refine hsync.told ((sameSets_bags sp).told ht) hwf (hok.bags sp) hroom (hl.bags sp) hcur hlen.symm ?_ ?_
            · intro x
              rw [syncEdges_dep]
              exact Iff.of_eq (by rw [htcur])
            · intro x hx
              obtain ⟨c, hc, rfl⟩ := List.mem_map.mp hx
              exact (hfr.1 c hc).last.mono isDep_of_isSp
          have hlt : σ.nodes.length < σ₂.nodes.length := by
            have hnodes : σ'.nodes.length = σ₂.nodes.length := by
              rw [hσ']
              show (σ₂.nodes.modify _ _).length = _
              rw [List.length_modify]
            have hadvl := hadv.length
            omega
          have htold' := (sameSets_setCurrent hlt bag).told htold
          rw [← hσ', hlen] at htold'
          have hR : σ'.mR = σ₂.mR := by
            rw [hσ']
            rfl
          rw [hR]
          exact htold'
  | @synced f rest hf hk hu =>
      cases h with
      | idle =>
          rw [htcur] at ht
          exact ht
      | @sync σ₂ _ sp bag ops f' rest' hf' hu' hsync hσ' hadv =>
          rw [hf] at hf'
          cases hf'
          rw [hu] at hu'
          cases hu'
  | @create f rest hf hk =>
      cases h with
      | idle => exact absurd rfl (hstarts hlen')
      | @create σ₂ _ sp bag p hp hok₁ hatt hnew hadv =>
          rw [hf] at hl ht
          have hfree : σ₂.mR.data.length < σ'.mR.data.length := by
            have hid := hok'.id_lt σ₂.nodes.length
            rw [hnew.new] at hid
            exact hid
          have hadvl := hadv.length
          have hlen₁ : σ₂.nodes.length = σ.nodes.length := hatt.length
          have hcur₁ : σ₂.tCurrent = σ.tCurrent := hatt.tCurrent
          obtain ⟨m₁, ht₁, hm₁, hroom₁, hrun⟩ := ((sameSets_bags sp).told ht).attachified hwf (hok.bags sp) hok₁
            (hl.bags sp) hatt hp hadv.did.run rfl (by omega) hfree
          obtain ⟨-, hspan, hbelow⟩ := (hl.bags sp).attachify hatt
          rw [← List.append_nil (newOps σ₂ σ.tCurrent)] at hrun
          obtain ⟨m₂, hedge, hrun⟩ := newOps_run hrun
          obtain rfl : m₂ = σ'.mR := Option.some.inj hrun
          rw [← hcur₁] at hedge
          rw [← hlen₁] at hnew
          have htold := ht₁.create hwf hok₁ hok' hroom₁ (by rw [hcur₁]; exact hspan) hbelow
            (by rw [hcur₁]; exact hatt.attached_self) (by rw [hcur₁, hlen₁]; exact hcur) (by rw [hlen₁, hlen])
            hm₁.symm hnew hedge
          rw [hcur₁, htcur, hlen₁, hlen] at htold
          exact htold.fewer fun x hx => lastOf_create hx
  | @finish f g rest fut fork hf hk hu =>
      cases h with
      | idle => exact absurd rfl (hstarts hlen')
      | @finish _ sp bag f' rest' _ fork' hf' hk' hnew hadv =>
          rw [hf] at hf'
          cases hf'
          rw [hk] at hk'
          cases hk'
          rw [hf, items_ended hst hf hu, hk] at hl ht
          have hadvl := hadv.length
          have hrun := hadv.did.run
          rw [← List.append_nil (newOps σ fork)] at hrun
          obtain ⟨m₂, hedge, hrun⟩ := newOps_run hrun
          obtain rfl : m₂ = σ'.mR := Option.some.inj hrun
          have hdata := hok.data_le
          have htold := ht.finish hwf hok hok' (by omega) hl hcur hlen.symm rfl hnew hedge
            (fun x (hx : LastOf (s.futures.set fut (some ⟨fork, s.cur, s.dag.length⟩)) x) =>
              (lastOf_finish hx).imp_right fun h => h.trans htcur.symm)
          rw [hlen] at htold
          exact htold
  | @get fut fin hfin =>
      cases h with
      | idle => exact absurd rfl (hstarts hlen')
      | @get σ₂ _ bag p _ fin' hfin' hlast hp hok₁ hatt hnew hadv =>
          rw [hfin] at hfin'
          cases hfin'
          have hfree : σ₂.mR.data.length < σ'.mR.data.length := by
            have hid := hok'.id_lt σ₂.nodes.length
            rw [hnew.new] at hid
            exact hid
          have hadvl := hadv.length
          have hlen₁ : σ₂.nodes.length = σ.nodes.length := hatt.length
          have hcur₁ : σ₂.tCurrent = σ.tCurrent := hatt.tCurrent
          obtain ⟨m₁, ht₁, hm₁, hroom₁, hrun⟩ := ht.attachified hwf hok hok₁ hl hatt hp hadv.did.run rfl (by omega)
            hfree
          obtain ⟨hstart, hspan, hbelow⟩ := hl.attachify hatt
          obtain ⟨m₂, hedge, hrun⟩ := newOps_run hrun
          rw [List.foldlM_cons] at hrun
          obtain ⟨m₃, hedge₂, hrun⟩ := Option.bind_eq_some_iff.mp hrun
          obtain rfl : m₃ = σ'.mR := Option.some.inj hrun
          rw [← hcur₁] at hedge
          rw [← hlen₁] at hnew
          have htold := ht₁.get hwf hok₁ hok' hroom₁ (by rw [hcur₁]; exact hspan) hbelow hstart
            (by rw [hcur₁]; exact hatt.attached_self) (by rw [hcur₁, hlen₁]; exact hcur) (by rw [hlen₁, hlen])
            hm₁.symm ⟨fut, fin, hfin, rfl⟩ hnew hedge hedge₂
          rw [hcur₁, htcur, hlen₁, hlen] at htold
          exact htold

end Event

/-! ## Queries

`precedes_now` first asks the bags, and only when they say no does it look at the sets. `precedesNow_cases` lists what
a yes can come from. -/

/-- What `precedes_now` does, and what a yes of it comes from: the bags, one set for both strands, or `precedes` of
    `R` for two sets. -/
theorem precedesNow_cases {u : Nat} {answer : Bool} (h : precedesNow σ u = some (σ', answer)) :
    ∃ bag sp sAnswer, (σ.node u).sbag = some bag ∧
      Structured.ds.precedesNow σ.mSp ⟨none, none⟩ bag = some (sp, sAnswer) ∧ σ' = { σ with mSp := sp } ∧
      (answer = true → sAnswer = true ∨ ∃ su sv, answering σ u = some su ∧ answering σ σ.tCurrent = some sv ∧
        σ.mR.precedes (σ.node su).id (σ.node sv).id = some true) := by
  unfold precedesNow at h
  obtain ⟨bag, hbag, h⟩ := Option.bind_eq_some_iff.mp h
  obtain ⟨⟨sp, sAnswer⟩, hsp, h⟩ := Option.bind_eq_some_iff.mp h
  refine ⟨bag, sp, sAnswer, hbag, hsp, ?_⟩
  cases sAnswer with
  | true =>
      obtain ⟨rfl, rfl⟩ := Prod.mk.inj (Option.some.inj h)
      exact ⟨rfl, fun _ => Or.inl rfl⟩
  | false =>
      dsimp only at h
      rw [if_neg Bool.false_ne_true] at h
      split at h
      · rename_i su sv hsu hsv
        obtain ⟨a, ha, h⟩ := Option.bind_eq_some_iff.mp h
        obtain ⟨rfl, rfl⟩ := Prod.mk.inj (Option.some.inj h)
        refine ⟨rfl, ?_⟩
        rintro rfl
        exact Or.inr ⟨su, sv, hsu, hsv, ha⟩
      · obtain ⟨rfl, rfl⟩ := Prod.mk.inj (Option.some.inj h)
        exact ⟨rfl, fun h => absurd h (by decide)⟩

/-- A query asks `precedes_now`. -/
theorem query_cases {x x' : Exec State SframeData SfutData Nat} {i : Strand} {answer : Bool}
    (h : Exec.query ds x i = some (x', answer)) :
    ∃ u, x.strands[i]? = some u ∧ precedesNow x.tool.reach u = some (x'.tool.reach, answer) := by
  obtain ⟨u, hu, h⟩ := Option.bind_eq_some_iff.mp h
  obtain ⟨⟨reach, a⟩, hprec, h⟩ := Option.bind_eq_some_iff.mp h
  obtain ⟨rfl, rfl⟩ := Prod.mk.inj (Option.some.inj h)
  refine ⟨u, hu, ?_⟩
  unfold Driver.precedesNow at hprec
  split at hprec
  · exact hprec
  · cases hprec

/-- **A yes of `R` is a path** to the running strand. Either both strands have one set that answers, and it stands
    before the running strand, or the matrix has an entry, which leads to the root of the running strand's set, and
    from there on to the strand itself. -/
theorem Told.answer {w u su sv : Nat} (ht : Told d done m σ items w) (hok : NodesOk σ) (hl : Live σ items w)
    (hsu : answering σ u = some su) (hsv : answering σ w = some sv)
    (hprec : m.precedes (σ.node su).id (σ.node sv).id = some true) : d.Reach isDep u w := by
  -- nothing answers for an unattached running strand
  have hw : σ.attached w = true := by
    by_contra hne
    have hw : σ.attached w = false := Bool.eq_false_iff.mpr hne
    cases ha : σ.attached (start items) with
    | true => exact hne (hl.seg.held ha).1
    | false =>
        obtain ⟨hfind, hsucc⟩ := hl.seg.free ha
        rw [answering_of_not hw] at hsv
        unfold State.setOf at hsv hsucc
        rw [hfind, hsucc] at hsv
        cases hsv
  rw [answering_of_attached hw] at hsv
  obtain rfl := Option.some.inj hsv
  have hid := ht.sound.answering_id hsu
  by_cases hsame : su = σ.find w
  · rw [hsame] at hsu
    exact ht.top.before u (Or.inr hsu)
  · rcases General.has_of_precedes hprec with heq | hhas
    · exact absurd (ht.sound.unique _ _ hid heq) hsame
    · have hpath := ht.sound.entries su _ hid (State.attached_iff.mp hw) hsame hhas u hsu
      exact hpath.trans (ht.top.reach (hok.find_find w))

/-! ## Every run

The bags may say yes, and this part has been proved of MultiBags: what they call an S bag comes before the running
strand in the series-parallel part of the dag. The rest is `Told.answer`. -/

/-- After `init` there is one strand, with one set. -/
theorem told_initial : Told Serial.init.dag (LastOf Serial.init.futures) initial.mR initial [] 0 := by
  have hnone : ∀ x, ¬LastOf Serial.init.futures x := by
    rintro x ⟨fut, fin, hfin, -⟩
    cases hfin
  have hfind := find_initial
  have hid : ∀ z, 0 < (initial.node z).id → z = 0 := by
    intro z hz
    rw [node_initial] at hz
    split at hz
    · assumption
    · cases hz
  have hstands : ∀ u, answering initial u = some 0 → u = 0 := by
    intro u hu
    cases u with
    | zero => rfl
    | succ u => cases hu
  refine ⟨⟨?_, nodesOk_initial.id_lt, ?_, ?_, ?_⟩, ⟨Rooted.of_attached rfl (Dag.Reach.refl _), ?_, ?_⟩, ?_, trivial, ?_, ?_⟩
  · intro i j hhas
    -- the two rows are new ones
    have hnone : General.Has ⟨[]⟩ i j := General.has_addNode.mp (General.has_addNode.mp hhas)
    obtain ⟨row, hrow, -⟩ := hnone
    cases hrow
  · intro x y hx hxy
    rw [hid x hx, hid y (hxy ▸ hx)]
  · intro x y _ hy
    rw [node_initial] at hy
    split at hy
    · cases hy
      exact Nat.one_pos
    · cases hy
  · intro x y hx hy hne
    exact absurd ((hid x hx).trans (hid y hy).symm) hne
  · intro u hu
    rcases hu with hu | hu
    · rw [hfind, hfind] at hu
      rw [hu]
      exact Dag.Reach.refl _
    · rw [hfind] at hu
      rw [hstands u hu]
      exact Dag.Reach.refl _
  · exact fun x hx => absurd hx (hnone x)
  · exact fun s hs => nomatch hs
  · exact fun fork hmem => nomatch hmem
  · exact fun x hx => absurd hx (hnone x)

/-- **A query of a run**: it changes no set, and a yes is a path. The yes of the bags is one by what is known of
    MultiBags without gets, whose paths are paths of the series-parallel part. -/
theorem query_sound {x : Exec State SframeData SfutData Nat}
    {b : DriverState Bags Structured.SframeData Structured.SfutData} {h : Owner} {locs : List Serial.Loc}
    {sbags : List Nat} (hx : Inv x b h locs sbags)
    (ht : Told x.prog.dag (LastOf x.prog.futures) x.tool.reach.mR x.tool.reach (Nonblock.items x.prog.frames)
      x.prog.cur) {i : Strand} (hi : i < x.prog.dag.length) {x' : Exec State SframeData SfutData Nat} {answer : Bool}
    (hq : Exec.query ds x i = some (x', answer)) :
    SameSets x.tool.reach x'.tool.reach ∧ (answer = true → x.prog.dag.Reach isDep i x.prog.cur) := by
  obtain ⟨u, hu, hprec⟩ := query_cases hq
  rw [hx.strands, List.getElem?_range hi] at hu
  obtain rfl := Option.some.inj hu
  obtain ⟨bag, sp, sAnswer, hbag, hsp, hsame, hyes⟩ := precedesNow_cases hprec
  refine ⟨?_, ?_⟩
  · rw [hsame]
    exact sameSets_bags sp
  · intro ha
    have hk := hx.known
    have hbi : i < locs.length := by
      rw [hk.bagsOk.length]
      exact hi
    rcases hyes ha with rfl | ⟨su, sv, hsu, hsv, hprec⟩
    · -- the strand is in an S bag
      have hsi : i < sbags.length := by
        rw [hk.strands.length]
        exact hbi
      have hu := List.getElem?_eq_getElem hsi
      have hl := List.getElem?_eq_getElem hbi
      obtain ⟨sp', hrun, -⟩ := hk.strands.precedesNow hk.linked.owned hu hl
      rw [hx.bagged.reach] at hrun
      have hbag' := hx.sbag i _ hu
      rw [hbag] at hbag'
      obtain rfl := Option.some.inj hbag'
      have hkind := (Prod.mk.inj (Option.some.inj (hsp.symm.trans hrun))).2
      have hin : ∃ k, locs[i]? = some (.s k) := by
        rw [hl]
        cases hloc : locs[i] with
        | s depth => exact ⟨depth, rfl⟩
        | p depth =>
            rw [hloc] at hkind
            exact absurd hkind (by simp [kindOf])
        | fut fut =>
            rw [hloc] at hkind
            exact absurd hkind (by simp [kindOf])
      exact ((hk.bagsOk.mem_s hk.stack i).mp hin).mono isDep_of_isSp
    · rw [← hx.tCurrent] at ht ⊢
      exact ht.answer hx.nodes hx.live hsu hsv hprec

/-- **After any run** the sets stand for what they should. By induction on the run. -/
theorem told_of_progRun {as : List Action} {s : Serial.State} (h : ProgRun rules as s)
    (hroom : s.dag.length + 1 < 2 ^ 64) : ∃ x b h locs sbags, Exec.run ds rules as = some x ∧ x.prog = s ∧
      Inv x b h locs sbags ∧ Told s.dag (LastOf s.futures) x.tool.reach.mR x.tool.reach
        (Nonblock.items s.frames) s.cur := by
  induction h with
  | nil =>
      obtain ⟨x, b, h, locs, sbags, hinit, hs, hreach, hinv⟩ := inv_init
      refine ⟨x, b, h, locs, sbags, by simp [Exec.run, hinit, Exec.runFrom], hs, hinv, ?_⟩
      rw [hreach]
      exact told_initial
  | @event as s s' e _ hs ih =>
      have hstep := Step.of_step hs
      have hle := dag_length_le hstep
      obtain ⟨x, b, h, locs, sbags, hrun, rfl, hinv, ht⟩ := ih (by omega)
      obtain ⟨x', b', h', locs', sbags', hexec, hs', hinv', hacts⟩ := inv_step hinv (by omega) hs
      subst hs'
      have hk := hinv.known
      have htold := hacts.told hstep hk.ok hk.stack hinv.nodes hinv'.nodes hinv.live hinv.curLt hinv.tCurrent
        hinv.length hinv'.length (by rw [hinv.length]; omega) ht
      exact ⟨x', b', h', locs', sbags', by rw [Exec.run_concat, hrun]; exact hexec, rfl, hinv', htold⟩
  | query _ hi ih =>
      obtain ⟨x, b, h, locs, sbags, hrun, rfl, hinv, ht⟩ := ih hroom
      obtain ⟨x', answer, b', hq, hs', hinv', hR, -⟩ := inv_query hinv hi
      refine ⟨x', b', h, locs, sbags, by rw [Exec.run_concat, hrun]; simp [Exec.act, hq], hs', hinv', ?_⟩
      rw [hR]
      exact (query_sound hinv ht hi hq).1.told ht

/-- **MultiBags+ misses no race**, whatever the program does and asks on the way: a strand that is said to come before
the running one is that one, or the computation has a path from it. -/
theorem nonblock_sound {as : List Action} {s : Serial.State} (h : ProgRun rules as s)
    (hroom : s.dag.length + 1 < 2 ^ 64) : ∃ x, Exec.run ds rules as = some x ∧ x.prog = s ∧
      ∀ i, i < s.dag.length → ∃ x' answer, Exec.query ds x i = some (x', answer) ∧
        (answer = true → s.dag.Reach isDep i s.cur) := by
  obtain ⟨x, b, h, locs, sbags, hrun, rfl, hinv, ht⟩ := told_of_progRun h hroom
  refine ⟨x, hrun, rfl, ?_⟩
  intro i hi
  obtain ⟨x', answer, b', hq, -⟩ := inv_query hinv hi
  exact ⟨x', answer, hq, (query_sound hinv ht hi hq).2⟩

/-- A block whose two branches have created futures: its join node gets a set of its own. -/
theorem nonblock_sound_bothAttached : ∃ x s, ProgRun rules (bothAttached.map .event) s ∧
    Exec.run ds rules (bothAttached.map .event) = some x ∧ x.prog = s ∧ s.cur = 8 ∧
      ∀ i, i < s.dag.length → ∃ x' answer, Exec.query ds x i = some (x', answer) ∧
        (answer = true → s.dag.Reach isDep i s.cur) := by
  have h : ProgRun rules (bothAttached.map .event) _ :=
    ((((((((ProgRun.nil.event rfl).event rfl).event rfl).event rfl).event rfl).event rfl).event rfl).event rfl).event rfl
  obtain ⟨x, hrun, hs, hq⟩ := nonblock_sound h (by decide)
  exact ⟨x, _, h, hrun, hs, rfl, hq⟩

end FOrder.Futurerd.Nonblock
