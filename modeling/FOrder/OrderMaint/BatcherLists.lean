import FOrder.OrderMaint.BatcherSafe
import FOrder.OrderMaint.OmrdSteps

/-!
# `OrderMaint.BatcherLists` — the structures under many workers

Between any two steps the structures are well formed, and the stacks hold the lists that are marked, but for those
whose worker is between its `CAS` and `add_heavy`. What an insert has found out about its base stays true while
other workers go on, so no assertion fails, and the inserts are those of an abstract list.

## What an insert knows

`Fact` gives each place of the code what the insert has found out so far. On the fast path it is only that the base
is there and the new node is not (`Fresh`). After a refusal the room behind the base is closed, or the list has been
spaced anew since (`Refused`): that a refused insert finds room after a relabel, and a node that is not heavy, is
read off this fact. Once the node is there, it is in one list with its base (`Om.Together`).

The facts are about the room behind the base, and `OmrdSteps` shows that an insert of another worker leaves it
alone, as the callers never insert twice after one base at a time (`Data.apart`, from `CanInsert`).

## What the stacks hold

A worker marks a list and puts it on the stack in two steps, so between them the marked list is on no stack.
`Stacked` closes the gap: the structure is `Omrd.Ok`, as for one worker, when the lists of the workers in between
(`Adds`) are put on the stack too. No two of them have the same list, since only one `CAS` succeeds.

## The relation

`Data` puts both together with the names: the abstract list of each order is the list of names of the structure. A
step of a worker is one of three kinds, and there is a lemma for each: the structures are left alone (`Data.move`,
`Data.silent`, `Data.goes`), the list of the base is written (`Data.write`), or a structure is relabelled
(`Fact.relabel`, in `BatcherRuns`).
-/

namespace FOrder.Batcher

open OrderMaint
open Machine (Trace)

/-- Fewer than `2 ^ 31` nodes in each structure. -/
def Fits (s : State) : Prop :=
  (s.orders .english).ds.root.names.length < 2 ^ 31 ∧ (s.orders .hebrew).ds.root.names.length < 2 ^ 31

instance : DecidablePred Fits := fun s => by
  unfold Fits
  infer_instance

/-- The bound, for the structure of a request. -/
theorem Fits.order {s : State} (h : Fits s) (o : Order) : (s.orders o).ds.root.names.length < 2 ^ 31 := by
  cases o with
  | english => exact h.1
  | hebrew => exact h.2

/-! ## What an insert in progress knows -/

/-- Before the node is in the list. -/
structure Fresh (om : Om) (r : Req) : Prop where
  base : r.base ∈ om.root.names
  new : r.new ∉ om.root.names

/-- After a refusal: there is no room behind the base, or it was made anew. -/
structure Refused (om : Om) (r : Req) : Prop extends Fresh om r where
  room : om.Room r.base Closed ∨ om.Room r.base Spaced

/-- What the insert of a worker knows at its place in the code. At `.failed` only the lock of batches may have
    caused the failure; so a proof of `Fact` for a next state that is `.failed` has to show that no other assertion
    has failed. -/
def Fact (om : Om) (w : Worker) : Prop :=
  match w.pc with
  | .idle => True
  | .trylock .fast | .tryInsert .fast | .join .fast _ => Fresh om w.req
  | .refused | .cas .slowPath | .addHeavy .slowPath | .setBatchId | .giveUp | .join .gaveUp _ | .clearFailed =>
      Refused om w.req
  | .trylock .slow | .tryInsert .slow | .join .retry _ => Refused om w.req ∧ w.insertFailed = false
  | .accepted .fast => om.Together w.req.base w.req.new
  | .accepted .slow => om.Together w.req.base w.req.new ∧ om.Room w.req.new Light ∧ w.insertFailed = false
  | .cas .last | .addHeavy .last | .unlock => om.Together w.req.base w.req.new
  | .failed a => a = .nextBatchOwner ∧ w.req.base ∈ om.root.names

/-- Between `CAS` and `add_heavy`. -/
def Pc.adding : Pc → Bool
  | .addHeavy _ => true
  | _ => false

/-- In an insert, and somewhere else. -/
def Pc.plain : Pc → Bool
  | .idle | .addHeavy _ => false
  | _ => true

/-- A plain place is inside an insert. -/
theorem Pc.ne_idle_of_plain {pc : Pc} (h : pc.plain = true) : pc ≠ .idle := by
  rintro rfl
  cases h

/-- At a plain place nobody is about to put a list on the stack. -/
theorem Pc.adding_of_plain {pc : Pc} (h : pc.plain = true) : pc.adding = false := by
  cases pc with
  | addHeavy c => cases h
  | _ => rfl

/-- What the abstract list knows of it: before `om_insert` has accepted the node it has been called, and from then
    on it is done. -/
def progressOf (w : Worker) : Progress :=
  match w.pc with
  | .idle => .idle
  | .accepted _ | .cas .last | .addHeavy .last | .unlock => .done
  | _ => .called w.req

variable {om om' : Om} {w : Worker} {r : Req}

/-- A refused insert stays refused: what its room was, closed or spaced anew, it is still, or it has been spaced
    anew. -/
theorem Refused.keep (h : Refused om r) (hfresh : Fresh om' r)
    (hroom : ∀ P, om.Room r.base P → om'.Room r.base P ∨ om'.Room r.base Spaced) : Refused om' r where
  toFresh := hfresh
  room := by
    rcases h.room with hclosed | hspaced
    · exact hroom Closed hclosed
    · exact Or.inr ((hroom Spaced hspaced).elim id id)

/-- **It stays true** when other workers insert or mark. `touched` is the node behind which the other worker has
    written, if any; it is neither the base nor the new node of this insert, so the room behind both is the same. By
    cases on the place of the worker. -/
theorem Fact.keep {touched : Option Name} (h : Fact om w) (hkeeps : om.Keeps om' touched)
    (hbase : touched ≠ some w.req.base) (hnew : touched ≠ some w.req.new)
    (hout : w.req.new ∉ om.root.names → w.req.new ∉ om'.root.names) : Fact om' w := by
  have hroom : ∀ x P, touched ≠ some x → om.Room x P → om'.Room x P := by
    rintro x P hx ⟨b, hb, label, next, hfollow, hP⟩
    obtain ⟨c, hc, -, -, hsame⟩ := hkeeps.lists b hb
    exact ⟨c, hc, label, next, (hsame x (follow_names hfollow) (Ne.symm hx)).trans hfollow, hP⟩
  have hmem : w.req.base ∈ om.root.names → w.req.base ∈ om'.root.names := by
    intro hin
    obtain ⟨b, hb, hmem⟩ := mem_names.mp hin
    obtain ⟨c, hc, -, hsub, -⟩ := hkeeps.lists b hb
    exact mem_names.mpr ⟨c, hc, hsub hmem⟩
  have hfresh : Fresh om w.req → Fresh om' w.req := fun hf => ⟨hmem hf.base, hout hf.new⟩
  have hrefused : Refused om w.req → Refused om' w.req := fun hr =>
    hr.keep (hfresh hr.toFresh) fun P hP => Or.inl (hroom _ P hbase hP)
  unfold Fact at h ⊢
  split at h
  · trivial
  · exact hfresh h
  · exact hfresh h
  · exact hfresh h
  · exact hrefused h
  · exact hrefused h
  · exact hrefused h
  · exact hrefused h
  · exact hrefused h
  · exact hrefused h
  · exact hrefused h
  · exact ⟨hrefused h.1, h.2⟩
  · exact ⟨hrefused h.1, h.2⟩
  · exact ⟨hrefused h.1, h.2⟩
  · exact hkeeps.together h
  · exact ⟨hkeeps.together h.1, hroom _ _ hnew h.2.1, h.2.2⟩
  · exact hkeeps.together h
  · exact hkeeps.together h
  · exact hkeeps.together h
  · exact ⟨h.1, hmem h.2⟩

/-- It stays true outside the critical section when the structure is relabelled. There a fact is about the base
    only, and a relabel keeps the room behind it or makes it anew; inside the critical section nothing would be left
    of `Together` and `Light`, but no batch runs then. -/
theorem Fact.relabel (h : Fact om w) (hout : w.pc.critical = false) (hnames : om'.root.names = om.root.names)
    (hroom : ∀ P, om.Room w.req.base P → om'.Room w.req.base P ∨ om'.Room w.req.base Spaced) : Fact om' w := by
  have hfresh : Fresh om w.req → Fresh om' w.req := fun hf => ⟨hnames ▸ hf.base, hnames ▸ hf.new⟩
  have hrefused : Refused om w.req → Refused om' w.req := fun hr => hr.keep (hfresh hr.toFresh) hroom
  unfold Fact at h ⊢
  split at h
  all_goals rename_i hpc
  all_goals rw [hpc] at hout
  · trivial
  · exact hfresh h
  · cases hout
  · exact hfresh h
  · cases hout
  · cases hout
  · cases hout
  · cases hout
  · cases hout
  · exact hrefused h
  · exact hrefused h
  · exact ⟨hrefused h.1, h.2⟩
  · cases hout
  · exact ⟨hrefused h.1, h.2⟩
  · cases hout
  · cases hout
  · cases hout
  · cases hout
  · cases hout
  · exact ⟨h.1, hnames ▸ h.2⟩

/-! ## The stacks -/

variable {p : Nat} {s s' : State} {leader : Option Nat} {i : Nat} {pc : Pc} {site : Site} {shl : Nat → Nat} {o : Order}

/-- Worker `i` is between its `CAS` and `add_heavy`, with the list under the leaf `t`. -/
def Adds (s : State) (o : Order) (i : Nat) (t : TlName) : Prop :=
  (∃ c, s.pc i = .addHeavy c) ∧ (s.worker i).req.order = o ∧ (s.orders o).ds.Under (s.worker i).req.base t

/-- The structure, with the lists on the stack that will be put there. -/
def State.withRest (s : State) (o : Order) (rest : List (Nat × TlName)) : Omrd :=
  { s.orders o with heavyNodes := (s.orders o).heavyNodes ++ rest.map Prod.snd }

/-- **The stack holds the lists that are marked**, each once, with those that will be put there. -/
def Stacked (s : State) (o : Order) : Prop :=
  ∃ rest : List (Nat × TlName), (rest.map Prod.fst).Nodup ∧ (∀ i t, (i, t) ∈ rest ↔ Adds s o i t) ∧
    (s.withRest o rest).Ok

/-- The tree does not depend on what is on the stack. -/
theorem Stacked.wellFormed (h : Stacked s o) : WellFormed (s.orders o).ds := by
  obtain ⟨rest, -, -, hok⟩ := h
  exact hok.wellFormed

/-- Nothing happens to the structure, and nobody marks: the same lists are still to be put on the stack. -/
theorem Stacked.same (h : Stacked s o) (horder : s'.orders o = s.orders o) (hadds : ∀ i t, Adds s' o i t ↔ Adds s o i t) :
    Stacked s' o := by
  obtain ⟨rest, hnodup, hmem, hok⟩ := h
  refine ⟨rest, hnodup, ?_, ?_⟩
  · intro i t
    rw [hmem, hadds]
  · unfold State.withRest
    rw [horder]
    exact hok

/-- Nobody is between its `CAS` and `add_heavy`, so the stack holds all marked lists. A batch starts like this. -/
theorem Stacked.ok (h : Stacked s o) (hnone : ∀ i, (s.pc i).critical = false) : (s.orders o).Ok := by
  obtain ⟨rest, -, hmem, hok⟩ := h
  have hrest : rest = [] := by
    by_contra hne
    obtain ⟨⟨i, t⟩, hit⟩ := List.exists_mem_of_ne_nil rest hne
    obtain ⟨⟨c, hc⟩, -⟩ := (hmem i t).mp hit
    have hcrit := hnone i
    rw [hc] at hcrit
    cases hcrit
  subst hrest
  simpa [State.withRest] using hok

/-- The other way round, after a batch. -/
theorem Stacked.of_ok (h : (s.orders o).Ok) (hnone : ∀ i, (s.pc i).critical = false) : Stacked s o := by
  refine ⟨[], List.nodup_nil, ?_, ?_⟩
  · intro i t
    constructor
    · intro hmem
      cases hmem
    · rintro ⟨⟨c, hc⟩, -⟩
      have hcrit := hnone i
      rw [hc] at hcrit
      cases hcrit
  · simpa [State.withRest] using h

/-! ## The relation to the abstract lists -/

/-- What the structures, the workers and the abstract lists have to do with each other. `apart` is what the callers
    promise by `CanInsert`, kept for the inserts in progress; it makes their bases pairwise different, and the new
    nodes different from each other and from the bases. -/
structure Data (s : State) (d : Lists) : Prop where
  stacked : ∀ o, Stacked s o
  facts : ∀ i, Fact (s.omrd i).ds (s.worker i)
  apart : ∀ i j, i ≠ j → s.pc i ≠ .idle → s.pc j ≠ .idle → (s.worker i).req.order = (s.worker j).req.order →
    (s.worker i).req.base ≠ (s.worker j).req.base ∧ (s.worker i).req.new ≠ (s.worker j).req.base ∧
      (s.worker i).req.new ≠ (s.worker j).req.new
  lists : ∀ o, d.lists o = (s.orders o).ds.root.names
  progress : ∀ i, d.progress i = progressOf (s.worker i)

variable {d d' : Lists}

/-- A worker that stays in its insert, or returns from it, stays apart from the others. -/
theorem Data.apart_step (h : Data s d) {w : Worker} (hothers : ∀ j, j ≠ i → s'.worker j = s.worker j)
    (hw : s'.worker i = w) (hreq : w.req = (s.worker i).req) (hidle : w.pc ≠ .idle → s.pc i ≠ .idle) :
    ∀ k j, k ≠ j → s'.pc k ≠ .idle → s'.pc j ≠ .idle → (s'.worker k).req.order = (s'.worker j).req.order →
      (s'.worker k).req.base ≠ (s'.worker j).req.base ∧ (s'.worker k).req.new ≠ (s'.worker j).req.base ∧
        (s'.worker k).req.new ≠ (s'.worker j).req.new := by
  have hreqs : ∀ k, (s'.worker k).req = (s.worker k).req := by
    intro k
    by_cases hk : k = i
    · subst hk
      rw [hw, hreq]
    · rw [hothers k hk]
  have hidles : ∀ k, s'.pc k ≠ .idle → s.pc k ≠ .idle := by
    intro k hk
    by_cases hki : k = i
    · subst hki
      apply hidle
      rw [← hw]
      exact hk
    · unfold State.pc at hk ⊢
      rwa [hothers k hki] at hk
  intro k j hkj hk hj
  rw [hreqs k, hreqs j]
  exact h.apart k j hkj (hidles k hk) (hidles j hj)

/-- **A step that leaves the structures alone.** Only worker `i` moves, it keeps its request, and it neither begins
    nor ends its time between `CAS` and `add_heavy`; so the stacks are as before, and only its own fact is to be
    shown. -/
theorem Data.move (h : Data s d) {w : Worker} (horders : s'.orders = s.orders)
    (hothers : ∀ j, j ≠ i → s'.worker j = s.worker j) (hw : s'.worker i = w) (hreq : w.req = (s.worker i).req)
    (hidle : w.pc ≠ .idle → s.pc i ≠ .idle) (hadd : w.pc.adding = false) (hadd' : (s.pc i).adding = false)
    (hfact : Fact (s.omrd i).ds w) (hlists : d'.lists = d.lists)
    (hprogress : d'.progress = Function.update d.progress i (progressOf w)) : Data s' d' where
  stacked o := by
    apply (h.stacked o).same (congrFun horders o)
    intro j t
    unfold Adds State.pc
    rw [horders]
    by_cases hj : j = i
    · subst hj
      rw [hw]
      constructor
      · rintro ⟨⟨c, hc⟩, -⟩
        rw [hc] at hadd
        cases hadd
      · rintro ⟨⟨c, hc⟩, -⟩
        unfold State.pc at hadd'
        rw [hc] at hadd'
        cases hadd'
    · rw [hothers j hj]
  facts j := by
    unfold State.omrd
    rw [horders]
    by_cases hj : j = i
    · subst hj
      rw [hw, hreq]
      exact hfact
    · rw [hothers j hj]
      exact h.facts j
  apart := h.apart_step hothers hw hreq hidle
  lists o := by
    rw [hlists, horders]
    exact h.lists o
  progress j := by
    rw [hprogress]
    by_cases hj : j = i
    · subst hj
      rw [Function.update_self, hw]
    · rw [Function.update_of_ne hj, hothers j hj]
      exact h.progress j

/-- The same, and the abstract list does not hear of it. -/
theorem Data.silent (h : Data s d) {w : Worker} (horders : s'.orders = s.orders)
    (hothers : ∀ j, j ≠ i → s'.worker j = s.worker j) (hw : s'.worker i = w) (hreq : w.req = (s.worker i).req)
    (hplain : (s.pc i).plain = true) (hadd : w.pc.adding = false) (hfact : Fact (s.omrd i).ds w) (hprogress : progressOf w = progressOf (s.worker i)) : Data s' d := by
  apply h.move horders hothers hw hreq (fun _ => Pc.ne_idle_of_plain hplain) hadd (Pc.adding_of_plain hplain) hfact rfl
  rw [hprogress, ← h.progress i, Function.update_eq_self]

/-- A worker goes to `pc`, and nothing else. -/
theorem Data.goes (h : Data s d) (pc : Pc) (hplain : (s.pc i).plain = true) (hadd : pc.adding = false)
    (hfact : Fact (s.omrd i).ds { s.worker i with pc := pc })
    (hprogress : progressOf { s.worker i with pc := pc } = progressOf (s.worker i)) {t : State}
    (horders : t.orders = s.orders) (hworker : t.worker = (s.goes i pc).worker) : Data t d := by
  refine h.silent (w := { s.worker i with pc := pc }) horders ?_ ?_ rfl hplain hadd hfact hprogress
  · intro j hj
    rw [hworker]
    exact Function.update_of_ne hj _ _
  · rw [hworker]
    exact Function.update_self i _ _

/-! ## The structures are written -/

/-- What is on the stack does not matter to `try_insert`: an accepted insert gives the same tree. -/
theorem tryInsert_withRest {omrd omrd' : Omrd} {base n : Name} (heavyNodes : List TlName)
    (htry : omrd.tryInsert base n = some (some omrd')) :
    ({ omrd with heavyNodes := heavyNodes } : Omrd).tryInsert base n = some (some { omrd' with heavyNodes := heavyNodes }) := by
  unfold Omrd.tryInsert at htry ⊢
  obtain ⟨x, hx, hmap⟩ := Option.map_eq_some_iff.mp htry
  obtain ⟨ds, rfl, rfl⟩ := Option.map_eq_some_iff.mp hmap
  simp [hx]

/-- Nor does it to a refusal. -/
theorem tryInsert_withRest_none {omrd : Omrd} {base n : Name} (heavyNodes : List TlName)
    (htry : omrd.tryInsert base n = some none) :
    ({ omrd with heavyNodes := heavyNodes } : Omrd).tryInsert base n = some none := by
  unfold Omrd.tryInsert at htry ⊢
  obtain ⟨x, hx, hmap⟩ := Option.map_eq_some_iff.mp htry
  rw [Option.map_eq_none_iff] at hmap
  subst hmap
  simp [hx]

/-- Nor to a failed assertion. With these three the specifications of `Omrd.tryInsert`, which want the stack in
    step, apply to a stack on which some lists are still missing. -/
theorem tryInsert_withRest_ne {omrd : Omrd} {base n : Name} (heavyNodes : List TlName)
    (htry : ({ omrd with heavyNodes := heavyNodes } : Omrd).tryInsert base n ≠ none) : omrd.tryInsert base n ≠ none := by
  intro hnone
  apply htry
  unfold Omrd.tryInsert at hnone ⊢
  rw [Option.map_eq_none_iff] at hnone ⊢
  exact hnone

/-- Where a list hangs does not change, when an insert or a mark keeps the lists. So whoever is about to put its
    list on the stack still puts the same leaf there. -/
theorem under_iff {touched : Option Name} (hkeeps : om.Keeps om' touched) (hwf : WellFormed om') {x : Name}
    (hx : x ∈ om.root.names) (t : TlName) : om'.Under x t ↔ om.Under x t := by
  constructor
  · intro ht
    obtain ⟨b, hb, hmem⟩ := mem_names.mp hx
    have hold : om.Under x b.above := ⟨b, hb, hmem, rfl⟩
    rwa [Om.Under.unique hwf ht (hkeeps.under hold)]
  · exact hkeeps.under

/-- Both nodes are in the structure; here, the first. -/
theorem together_mem {x y : Name} (h : om.Together x y) : x ∈ om.root.names := by
  obtain ⟨b, hb, hmem, -⟩ := h
  exact mem_names.mpr ⟨b, hb, hmem⟩

/-- The base of an insert in progress is in the structure. -/
theorem Fact.base_mem (h : Fact om w) (hidle : w.pc ≠ .idle) : w.req.base ∈ om.root.names := by
  unfold Fact at h
  split at h
  · rename_i hpc
    exact absurd hpc hidle
  · exact h.base
  · exact h.base
  · exact h.base
  · exact h.base
  · exact h.base
  · exact h.base
  · exact h.base
  · exact h.base
  · exact h.base
  · exact h.base
  · exact h.1.base
  · exact h.1.base
  · exact h.1.base
  · exact together_mem h
  · exact together_mem h.1
  · exact together_mem h
  · exact together_mem h
  · exact together_mem h
  · exact h.2

/-- **A structure is written** by worker `i`, which inserts or marks. `touched` is the base if it inserts. The stack
    of this order is to be shown by the caller, and the fact of the worker itself; the other order is another
    structure, and the facts of the other workers are kept by `Fact.keep`. -/
theorem Data.write (h : Data s d) (pc : Pc) (touched : Option Name) {omrd : Omrd}
    (horders : s'.orders = Function.update s.orders (s.worker i).req.order omrd)
    (hothers : ∀ j, j ≠ i → s'.worker j = s.worker j) (hw : s'.worker i = { s.worker i with pc := pc })
    (hidle : s.pc i ≠ .idle) (hkeeps : (s.omrd i).ds.Keeps omrd.ds touched)
    (htouched : ∀ x, touched = some x → x = (s.worker i).req.base)
    (hnames : ∀ x, x ∈ omrd.ds.root.names → x ∈ (s.omrd i).ds.root.names ∨ x = (s.worker i).req.new)
    (hstack : Stacked s' (s.worker i).req.order) (hfact : Fact omrd.ds { s.worker i with pc := pc })
    (hlists : d'.lists = Function.update d.lists (s.worker i).req.order omrd.ds.root.names)
    (hprogress : d'.progress = Function.update d.progress i (progressOf { s.worker i with pc := pc })) : Data s' d' where
  stacked o := by
    by_cases ho : o = (s.worker i).req.order
    · rw [ho]
      exact hstack
    · apply (h.stacked o).same
      · rw [horders, Function.update_of_ne ho]
      · intro j t
        unfold Adds State.pc
        rw [horders, Function.update_of_ne ho]
        by_cases hj : j = i
        · subst hj
          rw [hw]
          exact ⟨fun ⟨_, ho', _⟩ => absurd ho'.symm ho, fun ⟨_, ho', _⟩ => absurd ho'.symm ho⟩
        · rw [hothers j hj]
  facts j := by
    unfold State.omrd
    rw [horders]
    by_cases hj : j = i
    · subst hj
      rw [hw, Function.update_self]
      exact hfact
    · rw [hothers j hj]
      by_cases ho : (s.worker j).req.order = (s.worker i).req.order
      · rw [ho, Function.update_self]
        have hfactj := h.facts j
        unfold State.omrd at hfactj
        rw [ho] at hfactj
        by_cases hidlej : s.pc j = .idle
        · unfold Fact
          unfold State.pc at hidlej
          rw [hidlej]
          trivial
        · obtain ⟨hbb, hnb, hnn⟩ := h.apart j i hj hidlej hidle ho
          refine hfactj.keep hkeeps ?_ ?_ ?_
          · intro heq
            exact hbb (htouched _ heq)
          · intro heq
            exact hnb (htouched _ heq)
          · intro hout hin
            rcases hnames _ hin with hin | hin
            · exact hout hin
            · exact hnn hin
      · rw [Function.update_of_ne ho]
        exact h.facts j
  apart := h.apart_step hothers hw rfl fun _ => hidle
  lists o := by
    rw [hlists, horders]
    by_cases ho : o = (s.worker i).req.order
    · subst ho
      rw [Function.update_self, Function.update_self]
    · rw [Function.update_of_ne ho, Function.update_of_ne ho]
      exact h.lists o
  progress j := by
    rw [hprogress]
    by_cases hj : j = i
    · subst hj
      rw [Function.update_self, hw]
    · rw [Function.update_of_ne hj, hothers j hj]
      exact h.progress j

/-! ## The critical section -/

/-- The leaf of `om_get_tl` is the one that `locate` finds. -/
theorem locate_of_getTl {omrd : Omrd} {base : Name} {a : Leaf} (h : getTl omrd base = some a) :
    ∃ node, locate omrd.ds base = some (a, node) := by
  obtain ⟨⟨l, node⟩, hlocate, rfl⟩ := Option.map_eq_some_iff.mp h
  exact ⟨node, hlocate⟩

/-- The list of a node that is there. -/
theorem getTl_spec {omrd : Omrd} {base : Name} (h : WellFormed omrd.ds) (hbase : base ∈ omrd.ds.root.names) :
    ∃ a, getTl omrd base = some a ∧ a ∈ omrd.ds.root.leaves ∧ a.list ∈ omrd.ds.root.lists ∧ base ∈ a.list.names ∧
      a.node.level = maxLevel := by
  obtain ⟨b, hb, hmem⟩ := mem_names.mp hbase
  obtain ⟨a, node, hlocate, ha, rfl⟩ := locate_list h hb hmem
  refine ⟨a, ?_, ha, hb, hmem, (h.shaped.unsplit h.unmarked).2 a ha⟩
  simp [getTl, hlocate]

/-- Between `CAS` and `add_heavy` a worker is in an insert. -/
theorem adds_busy (h : ∃ c, w.pc = .addHeavy c) : w.pc ≠ .idle := by
  obtain ⟨c, hc⟩ := h
  rw [hc]
  simp

/-- The stack after an insert. No mark changes, and the lists in between hang from the same leaves as before
    (`under_iff`). -/
theorem Data.stack_insert (h : Data s d) {omrd : Omrd} {path : Path} (hpc : s.pc i = .tryInsert path)
    (hfresh : Fresh (s.omrd i).ds (s.worker i).req)
    (htry : (s.omrd i).tryInsert (s.worker i).req.base (s.worker i).req.new = some (some omrd)) :
    Stacked ((s.setOrder (s.worker i).req.order omrd).goes i (.accepted path)) (s.worker i).req.order := by
  obtain ⟨rest, hnodup, hmem, hok⟩ := h.stacked (s.worker i).req.order
  have htry' := tryInsert_withRest ((s.omrd i).heavyNodes ++ rest.map Prod.snd) htry
  obtain ⟨hok', -, -, hkeeps, -⟩ := Omrd.tryInsert_keeps hok hfresh.base hfresh.new htry'
  have hheavy : omrd.heavyNodes = (s.omrd i).heavyNodes := by
    unfold Omrd.tryInsert at htry
    obtain ⟨x, -, hmap⟩ := Option.map_eq_some_iff.mp htry
    obtain ⟨ds, -, rfl⟩ := Option.map_eq_some_iff.mp hmap
    rfl
  have hself : ((s.setOrder (s.worker i).req.order omrd).goes i (.accepted path)).orders (s.worker i).req.order = omrd := by
    simp [State.goes, State.setOrder]
  refine ⟨rest, hnodup, ?_, ?_⟩
  · intro j t
    rw [hmem]
    unfold Adds
    rw [hself]
    by_cases hj : j = i
    · subst hj
      rw [hpc, moves_goes.here]
      constructor
      · rintro ⟨⟨c, hc⟩, -⟩
        cases hc
      · rintro ⟨⟨c, hc⟩, -⟩
        cases hc
    · have hw : ((s.setOrder (s.worker i).req.order omrd).goes i (.accepted path)).worker j = s.worker j :=
        Function.update_of_ne hj _ _
      unfold State.pc
      rw [hw]
      constructor
      · rintro ⟨hadd, horder, hunder⟩
        exact ⟨hadd, horder, hkeeps.under hunder⟩
      · rintro ⟨hadd, horder, hunder⟩
        refine ⟨hadd, horder, ?_⟩
        have hfact := h.facts j
        unfold State.omrd at hfact
        rw [horder] at hfact
        exact (under_iff hkeeps hok'.wellFormed (hfact.base_mem (adds_busy hadd)) t).mp hunder
  · unfold State.withRest
    rw [hself, hheavy]
    exact hok'

/-- The stack after a mark. The list was not marked, so it is not on the stack and nobody is about to put it there;
    now worker `i` is. -/
theorem Data.stack_mark (h : Data s d) {a : Leaf} {c : Caller} (hpc : s.pc i = .cas c)
    (hbase : (s.worker i).req.base ∈ (s.omrd i).ds.root.names)
    (ha : getTl (s.omrd i) (s.worker i).req.base = some a) (hheavy : a.list.heavy = false) :
    Stacked ((s.setOrder (s.worker i).req.order (setHeavy (s.omrd i) a)).goes i (.addHeavy c))
      (s.worker i).req.order := by
  obtain ⟨rest, hnodup, hmem, hok⟩ := h.stacked (s.worker i).req.order
  have hwf : WellFormed (s.omrd i).ds := hok.wellFormed
  obtain ⟨a', ha', haleaf, halist, habase, hlevel⟩ := getTl_spec hwf hbase
  rw [ha] at ha'
  cases ha'
  obtain ⟨node, hlocate⟩ := locate_of_getTl ha
  have hlocate' : locate (s.withRest (s.worker i).req.order rest).ds (s.worker i).req.base = some (a, node) := hlocate
  obtain ⟨marked, hmark, hmarked, -⟩ := Omrd.mark_spec hok hbase
  simp only [Omrd.mark, hlocate', Option.bind_eq_bind, Option.bind_some, hheavy, hlevel, if_true, Bool.false_eq_true,
    if_false, Option.some.injEq] at hmark
  subst hmark
  have hkeeps := (setHeavy_keeps hwf a.list.above).1
  have hself : ((s.setOrder (s.worker i).req.order (setHeavy (s.omrd i) a)).goes i (.addHeavy c)).orders
      (s.worker i).req.order = setHeavy (s.omrd i) a := Function.update_self _ _ s.orders
  have hnot : i ∉ rest.map Prod.fst := by
    intro hi
    obtain ⟨⟨j, t⟩, hjt, rfl⟩ := List.mem_map.mp hi
    obtain ⟨⟨c', hc'⟩, -⟩ := (hmem _ t).mp hjt
    rw [hpc] at hc'
    cases hc'
  refine ⟨rest ++ [(i, a.list.above)], ?_, ?_, ?_⟩
  · rw [List.map_append]
    refine List.nodup_append.mpr ⟨hnodup, List.nodup_singleton _, ?_⟩
    rintro x hx y hy rfl
    rw [List.map_singleton, List.mem_singleton] at hy
    have hxi : x = i := hy
    exact hnot (hxi ▸ hx)
  · intro j t
    rw [List.mem_append, List.mem_singleton, hmem]
    unfold Adds
    rw [hself]
    by_cases hj : j = i
    · subst hj
      rw [hpc, moves_goes.here]
      constructor
      · rintro (⟨⟨c', hc'⟩, -⟩ | heq)
        · cases hc'
        · cases heq
          refine ⟨⟨c, rfl⟩, ?_, ?_⟩
          · simp [State.goes, State.setOrder]
          · show Om.Under _ (((s.setOrder _ _).goes j (.addHeavy c)).worker j).req.base _
            simp only [State.goes, State.setOrder, Function.update_self]
            exact hkeeps.under ⟨a.list, halist, habase, rfl⟩
      · rintro ⟨-, -, hunder⟩
        right
        simp only [State.goes, State.setOrder, Function.update_self] at hunder
        have hhere : Om.Under (setHeavy (s.omrd j) a).ds (s.worker j).req.base a.list.above :=
          hkeeps.under ⟨a.list, halist, habase, rfl⟩
        rw [Om.Under.unique hmarked.wellFormed hunder hhere]
    · have hw : ((s.setOrder (s.worker i).req.order (setHeavy (s.omrd i) a)).goes i (.addHeavy c)).worker j = s.worker j :=
        Function.update_of_ne hj _ _
      unfold State.pc
      rw [hw]
      constructor
      · rintro (⟨hadd, horder, hunder⟩ | heq)
        · exact ⟨hadd, horder, hkeeps.under hunder⟩
        · cases heq
          exact absurd rfl hj
      · rintro ⟨hadd, horder, hunder⟩
        refine Or.inl ⟨hadd, horder, ?_⟩
        have hfact := h.facts j
        unfold State.omrd at hfact
        rw [horder] at hfact
        exact (under_iff hkeeps hmarked.wellFormed (hfact.base_mem (adds_busy hadd)) t).mp hunder
  · unfold State.withRest
    rw [hself, List.map_append, ← List.append_assoc]
    exact hmarked

/-- The stack after `add_heavy`. The entry of worker `i` moves from those in between to the end of the stack; as a
    collection it is the same, and the order of the stack does not matter (`Omrd.Ok.perm`). -/
theorem Data.stack_add (h : Data s d) {a : Leaf} {c : Caller} (hpc : s.pc i = .addHeavy c)
    (hbase : (s.worker i).req.base ∈ (s.omrd i).ds.root.names)
    (ha : getTl (s.omrd i) (s.worker i).req.base = some a) :
    Stacked ((s.setOrder (s.worker i).req.order { s.omrd i with heavyNodes := (s.omrd i).heavyNodes ++ [a.list.above] }).goes
      i c.next) (s.worker i).req.order := by
  obtain ⟨rest, hnodup, hmem, hok⟩ := h.stacked (s.worker i).req.order
  have hwf : WellFormed (s.omrd i).ds := hok.wellFormed
  obtain ⟨a', ha', haleaf, halist, habase, hlevel⟩ := getTl_spec hwf hbase
  rw [ha] at ha'
  cases ha'
  have hunder : (s.omrd i).ds.Under (s.worker i).req.base a.list.above := ⟨a.list, halist, habase, rfl⟩
  have hin : (i, a.list.above) ∈ rest := (hmem _ _).mpr ⟨⟨c, hpc⟩, rfl, hunder⟩
  obtain ⟨before, after, rfl⟩ := List.append_of_mem hin
  have hnodup' : ((before ++ after).map Prod.fst).Nodup ∧ i ∉ (before ++ after).map Prod.fst := by
    have hperm : ((before ++ (i, a.list.above) :: after).map Prod.fst).Perm (i :: (before ++ after).map Prod.fst) :=
      List.perm_middle.map Prod.fst
    have hcons := hperm.nodup_iff.mp hnodup
    exact ⟨(List.nodup_cons.mp hcons).2, (List.nodup_cons.mp hcons).1⟩
  have hself : ((s.setOrder (s.worker i).req.order
      { s.omrd i with heavyNodes := (s.omrd i).heavyNodes ++ [a.list.above] }).goes i c.next).orders
      (s.worker i).req.order = { s.omrd i with heavyNodes := (s.omrd i).heavyNodes ++ [a.list.above] } :=
    Function.update_self _ _ s.orders
  refine ⟨before ++ after, hnodup'.1, ?_, ?_⟩
  · intro j t
    unfold Adds
    rw [hself]
    by_cases hj : j = i
    · subst hj
      rw [moves_goes.here]
      constructor
      · intro hjt
        exact absurd (List.mem_map_of_mem hjt) hnodup'.2
      · rintro ⟨⟨c', hc'⟩, -⟩
        cases c <;> cases hc'
    · have hw : ((s.setOrder (s.worker i).req.order
          { s.omrd i with heavyNodes := (s.omrd i).heavyNodes ++ [a.list.above] }).goes i c.next).worker j = s.worker j :=
        Function.update_of_ne hj _ _
      have hold : (j, t) ∈ before ++ (i, a.list.above) :: after ↔ (j, t) ∈ before ++ after := by
        rw [List.mem_append, List.mem_append, List.mem_cons]
        have hne : (j, t) ≠ (i, a.list.above) := fun heq => hj (congrArg Prod.fst heq)
        simp [hne]
      unfold State.pc
      rw [hw, ← hold, hmem]
      exact Iff.rfl
  · unfold State.withRest
    rw [hself]
    refine hok.perm ?_
    show ((s.omrd i).heavyNodes ++ (before ++ (i, a.list.above) :: after).map Prod.snd).Perm _
    rw [List.append_assoc]
    apply List.Perm.append_left
    exact List.perm_middle.map Prod.snd

end FOrder.Batcher
