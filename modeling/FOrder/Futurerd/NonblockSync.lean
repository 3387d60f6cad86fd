import FOrder.Futurerd.NonblockJoin

/-!
# `Futurerd.NonblockSync` — a block ends

The loops of `perform_join` one after the other: `JoinRun` is a run of the first one, `Finished` what the other two
make of its last state. Both say which nodes change and which calls `R` sees, so that what is proved of a sync
elsewhere goes along them.

The second loop puts the join node into a set, by `num_attached`:

- none: into the set of the block, which stays unattached (`endJoin_none`);
- one: into the only attached set of a join parent (`endJoin_one`);
- several: into an attached set of its own (`endJoin_many`).

The third loop, when something is attached, tells every join parent what is behind it: an attached one by an edge to
the join node, an unattached one by its successor (`LinkedUp`). Afterwards the segment of the block ends at the join
node and is `Live` again (`Live.of_joined`).

`performJoin_spec` puts the loops together, `atSync_spec` the call on the bags in front of them; `Synced` is the
record of a sync that both soundness and closure of `R` are proved along.
-/

namespace FOrder.Futurerd.Nonblock

variable {σ σ' : State} {items : List Item}

/-! ## The first loop

One fork after the other, from the last one back. `Handled` has one constructor for each way through
`handle_binary_fork_at_sync`, with the state that it leaves, so that later proofs split on `Handled` and not on the
code. -/

/-- The entry of a spawned child that has come back. -/
def entry (x : Nat × Nat) : ForkNodeData := ⟨some x.1, some (x.1 + 1), some (x.2 + 1), some x.2⟩

/-- The item of such a child. -/
def joinItem (x : Nat × Nat) : Item := .join x.1 x.2

/-- What handling one fork can do, by which of its branches are attached. `left` and `right` take an unattached fork
    in; `both` attaches the fork and adds the two edges that go into sets which may have edges of their own. -/
inductive Handled (σ : State) (fork ljp fake : Nat) : State → List General.Op → Prop where
  | none (hl : σ.attached ljp = false) (hr : σ.attached fake = false) :
      Handled σ fork ljp fake ((σ.merge fork ljp).merge fork fake) []
  | left (hl : σ.attached ljp = true) (hr : σ.attached fake = false) :
      Handled σ fork ljp fake (absorb σ (fork + 1) fork) []
  | right (hl : σ.attached ljp = false) (hr : σ.attached fake = true) :
      Handled σ fork ljp fake (absorb σ (ljp + 1) fork) []
  | both {σ₁ σ₂ σ' p} (hl : σ.attached ljp = true) (hr : σ.attached fake = true)
      (hp : (σ.setOf fork).attPred = some p) (hok : NodesOk σ₁) (hatt : Attachified σ σ₁ fork)
      (hdid : Did σ σ₁ (attachOps σ fork p))
      (h₁ : EdgeAdded σ₁ σ₂ (σ₁.setOf fork).id (σ₁.setOf (fork + 1)).id)
      (h₂ : EdgeAdded σ₂ σ' (σ₁.setOf fork).id (σ₁.setOf (ljp + 1)).id) :
      Handled σ fork ljp fake σ' (attachOps σ fork p ++ [.addEdge (σ₁.setOf fork).id (σ₁.setOf (fork + 1)).id] ++
        [.addEdge (σ₁.setOf fork).id (σ₁.setOf (ljp + 1)).id])

/-- **`handle_binary_fork_at_sync` returns**, and the next fork is due. `Joining` has what its assertions ask for.
    -/
theorem handle_spec {c fork ljp fake num : Nat} {ps : List Nat}
    (hj : Joining σ c (.join fork ljp :: items) fake num ps) (hroom : σ.nodes.length < 2 ^ 64) :
    ∃ σ' ops, handleBinaryForkAtSync σ fork (fork + 1) (ljp + 1) ljp fake = some σ' ∧
      Handled σ fork ljp fake σ' ops ∧ Kept σ σ' ops ∧
      Joining σ' c items fork (if σ'.attached fork then num + 1 else num) (ps ++ [ljp]) := by
  cases hl : σ.attached ljp with
  | false =>
      cases hr : σ.attached fake with
      | false =>
          obtain ⟨hrun, hk, hnext⟩ := handle_none hj hl hr
          exact ⟨_, _, hrun, .none hl hr, hk, hnext⟩
      | true =>
          obtain ⟨hrun, hk, hnext⟩ := handle_right hj hl hr
          exact ⟨_, _, hrun, .right hl hr, hk, hnext⟩
  | true =>
      cases hr : σ.attached fake with
      | false =>
          obtain ⟨hrun, hk, hnext⟩ := handle_left hj hl hr
          exact ⟨_, _, hrun, .left hl hr, hk, hnext⟩
      | true =>
          obtain ⟨σ₁, σ₂, σ', p, hrun, hp, hok₁, hatt, hdid, h₁, h₂, hnext⟩ := handle_both hj hroom hl hr
          exact ⟨σ', _, hrun, .both hl hr hp hok₁ hatt hdid h₁ h₂,
            ((hatt.kept hdid).trans h₁.kept).trans h₂.kept, hnext⟩

/-- The first loop over `forks`, with `items` below the block. -/
inductive JoinRun (c : Nat) (items : List Item) :
    State → List (Nat × Nat) → Nat → Nat → List Nat → State → Nat → Nat → List Nat → List General.Op → Prop where
  | nil {σ fake num ps} : JoinRun c items σ [] fake num ps σ fake num ps []
  | step {σ σ₁ σ' fork ljp forks fake fake' num num' ps ps' ops ops'}
      (hj : Joining σ c (.join fork ljp :: (forks.map joinItem ++ items)) fake num ps)
      (hh : Handled σ fork ljp fake σ₁ ops) (hk : Kept σ σ₁ ops)
      (hj' : Joining σ₁ c (forks.map joinItem ++ items) fork (if σ₁.attached fork then num + 1 else num)
        (ps ++ [ljp]))
      (hrest : JoinRun c items σ₁ forks fork (if σ₁.attached fork then num + 1 else num) (ps ++ [ljp])
        σ' fake' num' ps' ops') :
      JoinRun c items σ ((fork, ljp) :: forks) fake num ps σ' fake' num' ps' (ops ++ ops')

/-- **The first loop returns.** By induction on the forks, with `handle_spec` for each of them. -/
theorem joinForks_spec {c : Nat} : ∀ {forks : List (Nat × Nat)} {σ : State} {fake num : Nat} {ps : List Nat},
    Joining σ c (forks.map joinItem ++ items) fake num ps → σ.nodes.length < 2 ^ 64 →
    ∃ σ' fake' num' ps' ops, joinForks σ fake num ps (forks.map entry) = some (σ', num', ps') ∧
      JoinRun c items σ forks fake num ps σ' fake' num' ps' ops ∧ Kept σ σ' ops ∧
      Joining σ' c items fake' num' ps' ∧ ps'.length = ps.length + forks.length := by
  intro forks
  induction forks with
  | nil =>
      intro σ fake num ps hj _
      exact ⟨σ, fake, num, ps, [], rfl, .nil, Kept.refl σ, hj, rfl⟩
  | cons x forks ih =>
      obtain ⟨fork, ljp⟩ := x
      intro σ fake num ps hj hroom
      obtain ⟨σ₁, ops₁, hrun₁, hh, hk₁, hj₁⟩ := handle_spec hj hroom
      obtain ⟨σ', fake', num', ps', ops', hrun, hjr, hk, hj', hlen⟩ := ih hj₁ (by rw [hk₁.length]; exact hroom)
      refine ⟨σ', fake', num', ps', ops₁ ++ ops', ?_, .step hj hh hk₁ hj₁ hjr, hk₁.trans hk, hj', ?_⟩
      · -- the assertion at the end of the body
        have hguard : 0 < (if σ₁.attached fork then num + 1 else num) ∨ σ₁.find σ₁.tCurrent = σ₁.find fork := by
          have hb := hj₁.branches
          have hcur := hj₁.tCurrent
          have hmem := hj₁.cur
          generalize (if σ₁.attached fork then num + 1 else num) = n at hb ⊢
          cases hb with
          | none ha hfake hsucc hps =>
              rw [hcur, hps c hmem, hfake]
              exact Or.inr rfl
          | one => exact Or.inl Nat.zero_lt_one
          | many hnum ha hfake => exact Or.inl (Nat.lt_of_lt_of_le Nat.zero_lt_two hnum)
        simp only [List.map_cons, joinForks, entry, Option.bind_eq_bind, Option.bind_some, hrun₁]
        simp only [hguard, guard, if_true, pure, Option.bind_some]
        exact hrun
      · rw [hlen]
        simp
        omega

/-! ## The third loop

It runs after the second one, but what it does can be said without it: it writes successors of unattached join parents
and adds edges from attached ones, and all of them lead to the set of the join node. Its body reads only what no other
turn of it writes, so `linkOps` can be told from the state before the loop. -/

/-- The calls of the third loop. -/
def linkOps (σ : State) (j : Nat) (ps : List Nat) : List General.Op :=
  (ps.filter σ.attached).map fun p => .addEdge (σ.setOf p).id (σ.setOf j).id

/-- What the third loop does: unattached join parents get a successor. -/
structure LinkedUp (σ σ' : State) (j : Nat) (ps : List Nat) : Prop where
  ok : NodesOk σ'
  find : ∀ z, σ'.find z = σ.find z
  length : σ'.nodes.length = σ.nodes.length
  tCurrent : σ'.tCurrent = σ.tCurrent
  mSp : σ'.mSp = σ.mSp
  data : σ'.mR.data.length = σ.mR.data.length
  node : ∀ z, σ'.node z = if (σ.node z).id = 0 ∧ ∃ p ∈ ps, σ.find p = z then
    { σ.node z with attSucc := some (σ.find j) } else σ.node z
  did : Did σ σ' (linkOps σ j ps)

/-- Successors only: no id changes. -/
theorem LinkedUp.id {j : Nat} {ps : List Nat} (h : LinkedUp σ σ' j ps) (z : Nat) :
    (σ'.node z).id = (σ.node z).id := by
  rw [h.node]
  split <;> rfl

/-- So nothing is attached or unattached by it. -/
theorem LinkedUp.attached {j : Nat} {ps : List Nat} (h : LinkedUp σ σ' j ps) (z : Nat) :
    σ'.attached z = σ.attached z := by
  unfold State.attached State.setOf
  rw [h.find, h.id]

/-- Nor is the id of a set changed. -/
theorem LinkedUp.setOf_id {j : Nat} {ps : List Nat} (h : LinkedUp σ σ' j ps) (z : Nat) :
    (σ'.setOf z).id = (σ.setOf z).id := by
  unfold State.setOf
  rw [h.find, h.id]

/-- The calls of the rest of the loop are the same. -/
theorem linkOps_congr {j : Nat} {ps qs : List Nat} (h : LinkedUp σ σ' j qs) :
    linkOps σ' j ps = linkOps σ j ps := by
  have hatt : σ'.attached = σ.attached := funext h.attached
  unfold linkOps
  rw [hatt, h.setOf_id]
  exact List.map_congr_left fun p _ => by rw [h.setOf_id]

/-- One step of the loop: an edge from an attached join parent, a successor for an unattached one. -/
theorem linkJoin_spec (hok : NodesOk σ) (hroom : σ.nodes.length < 2 ^ 64) (j : Nat) {p : Nat}
    (hp : p < σ.nodes.length) : ∃ σ', linkJoin j σ p = some σ' ∧ LinkedUp σ σ' j [p] := by
  unfold linkJoin
  cases hatt : σ.attached p with
  | true =>
      obtain ⟨σ', hrun, hok', hedge⟩ := addEdge_spec hok hroom (show (σ.setOf p).id < _ from hok.id_lt _)
        (show (σ.setOf j).id < _ from hok.id_lt _)
      refine ⟨σ', by simpa [State.setOf] using hrun, hok', hedge.same.find, by rw [hedge.same.nodes], hedge.tCurrent,
        hedge.mSp, hedge.data, ?_, ?_⟩
      · intro z
        rw [hedge.same.node, if_neg]
        rintro ⟨hid, q, hq, hz⟩
        obtain rfl : q = p := by simpa using hq
        have hpos := State.attached_iff.mp hatt
        rw [hz] at hpos
        omega
      · rw [show linkOps σ j [p] = [.addEdge (σ.setOf p).id (σ.setOf j).id] by simp [linkOps, hatt]]
        exact hedge.did
  | false =>
      have hlt := hok.find_lt hp
      have hnode := State.node_modify hlt fun n => { n with attSucc := some (σ.find j) }
      refine ⟨σ.modify (σ.find p) fun n => { n with attSucc := some (σ.find j) }, by simp,
        hok.modify hlt (fun _ => rfl) (hok.pred _), fun _ => rfl, by simp [State.modify], rfl, rfl, rfl, ?_, ?_⟩
      · intro z
        rw [hnode]
        by_cases hz : z = σ.find p
        · subst hz
          rw [if_pos rfl, if_pos ⟨State.not_attached.mp hatt, p, by simp, rfl⟩]
        · rw [if_neg hz, if_neg]
          rintro ⟨-, q, hq, hqz⟩
          obtain rfl : q = p := by simpa using hq
          exact hz hqz.symm
      · rw [show linkOps σ j [p] = [] by simp [linkOps, hatt]]
        exact Did.of_same rfl rfl

/-- One step, and the rest of the loop. -/
theorem LinkedUp.cons {σ'' : State} {j p : Nat} {ps : List Nat} (h : LinkedUp σ σ' j [p])
    (h' : LinkedUp σ' σ'' j ps) : LinkedUp σ σ'' j (p :: ps) where
  ok := h'.ok
  find z := (h'.find z).trans (h.find z)
  length := h'.length.trans h.length
  tCurrent := h'.tCurrent.trans h.tCurrent
  mSp := h'.mSp.trans h.mSp
  data := h'.data.trans h.data
  node z := by
    rw [h'.node, h.id, h.find j, h.node z]
    simp only [h.find, List.mem_cons, List.not_mem_nil, or_false, exists_eq_left, exists_eq_or_imp]
    by_cases hid : (σ.node z).id = 0
    · by_cases hp : σ.find p = z
      · simp [hid, hp]
      · simp [hp]
    · simp [hid]
  did := by
    have hdid := h.did.trans h'.did
    rw [linkOps_congr h] at hdid
    rw [show linkOps σ j (p :: ps) = linkOps σ j [p] ++ linkOps σ j ps by
      unfold linkOps
      rw [← List.map_append, ← List.filter_append]
      rfl]
    exact hdid

/-- **The third loop returns.** By induction on the join parents; every one of them is a node. -/
theorem linkJoins_spec (j : Nat) : ∀ {ps : List Nat} {σ : State}, NodesOk σ → σ.nodes.length < 2 ^ 64 →
    (∀ p ∈ ps, p < σ.nodes.length) → ∃ σ', ps.foldlM (linkJoin j) σ = some σ' ∧ LinkedUp σ σ' j ps := by
  intro ps
  induction ps with
  | nil =>
      intro σ hok _ _
      exact ⟨σ, rfl, hok, fun _ => rfl, rfl, rfl, rfl, rfl, fun z => by simp, Did.refl σ⟩
  | cons p ps ih =>
      intro σ hok hroom hps
      obtain ⟨σ₁, hrun₁, h₁⟩ := linkJoin_spec hok hroom j (hps p List.mem_cons_self)
      obtain ⟨σ', hrun, h'⟩ := ih h₁.ok (by rw [h₁.length]; exact hroom)
        (fun q hq => by rw [h₁.length]; exact hps q (List.mem_cons_of_mem p hq))
      refine ⟨σ', ?_, h₁.cons h'⟩
      rw [List.foldlM_cons, hrun₁]
      exact hrun

/-! ## The second loop

It is there for the case in which one set is attached: among the join parents the loop meets this set, perhaps more
than once, and merges the join node into it. `JoinAt` is the state before and after the merge in one: the join node is
alone or in that set. -/

/-- The join node is alone, or in the set of `r`; all else is as in `σ`. -/
structure JoinAt (σ σ' : State) (j r : Nat) : Prop where
  ok : NodesOk σ'
  nodes : σ'.nodes = σ.nodes
  tCurrent : σ'.tCurrent = σ.tCurrent
  mSp : σ'.mSp = σ.mSp
  mR : σ'.mR = σ.mR
  calls : σ'.calls = σ.calls
  find : ∀ z, z ≠ j → σ'.find z = σ.find z
  place : σ'.find j = j ∨ σ'.find j = r

/-- No node is written. -/
theorem JoinAt.node {j r : Nat} (h : JoinAt σ σ' j r) (z : Nat) : σ'.node z = σ.node z := by
  unfold State.node
  rw [h.nodes]

/-- No other strand is attached by it. -/
theorem JoinAt.attached {j r z : Nat} (h : JoinAt σ σ' j r) (hz : z ≠ j) : σ'.attached z = σ.attached z := by
  unfold State.attached State.setOf
  rw [h.find z hz, h.node]

/-- **The second loop** puts the join node into the only attached set. By induction on the join parents: the join
    node stays alone until the first attached one, and then it is in the set already, so that later merges do
    nothing. -/
theorem mergeJoins_spec {j r : Nat} (hother : ∀ z, z ≠ j → σ.find z ≠ j) (hj : j < σ.nodes.length)
    (hid : (σ.node j).id = 0) : ∀ {ps : List Nat} {σ' : State}, JoinAt σ σ' j r →
      (∀ p ∈ ps, p ≠ j ∧ p < σ.nodes.length ∧ (σ.attached p = true → σ.find p = r)) →
      JoinAt σ (ps.foldl (mergeJoin j) σ') j r ∧
        ((∃ p ∈ ps, σ.attached p = true) ∨ σ'.find j = r → (ps.foldl (mergeJoin j) σ').find j = r) := by
  intro ps
  induction ps with
  | nil =>
      intro σ' h _
      refine ⟨h, ?_⟩
      rintro (⟨p, hp, -⟩ | hr)
      · cases hp
      · exact hr
  | cons p ps ih =>
      intro σ' h hps
      obtain ⟨hpj, hp, hpr⟩ := hps p List.mem_cons_self
      have hps' : ∀ q ∈ ps, q ≠ j ∧ q < σ.nodes.length ∧ (σ.attached q = true → σ.find q = r) :=
        fun q hq => hps q (List.mem_cons_of_mem p hq)
      rw [List.foldl_cons]
      have hatt' := h.attached hpj
      unfold mergeJoin
      cases hatt : σ.attached p with
      | false =>
          rw [hatt', hatt, if_neg (by simp)]
          obtain ⟨hres, hend⟩ := ih h hps'
          refine ⟨hres, ?_⟩
          rintro (⟨q, hq, hqatt⟩ | hr)
          · rcases List.mem_cons.mp hq with rfl | hq
            · rw [hatt] at hqatt
              cases hqatt
            · exact hend (Or.inl ⟨q, hq, hqatt⟩)
          · exact hend (Or.inr hr)
      | true =>
          rw [hatt', hatt, if_pos rfl]
          have hr := hpr hatt
          have hpn : p < σ'.nodes.length := by
            rw [h.nodes]
            exact hp
          have hjn : j < σ'.nodes.length := by
            rw [h.nodes]
            exact hj
          have hpfind : σ'.find p = r := (h.find p hpj).trans hr
          have hmerge := State.find_merge h.ok hpn hjn
          have hroot : (σ'.node (σ'.find j)).id = 0 ∨ σ'.find p = σ'.find j := by
            rcases h.place with hself | hself
            · rw [hself, h.node]
              exact Or.inl hid
            · exact Or.inr (hpfind.trans hself.symm)
          have hjfind : (σ'.merge p j).find j = r := by rw [hmerge, if_pos rfl, hpfind]
          have hstep : JoinAt σ (σ'.merge p j) j r := by
            refine ⟨h.ok.merge hpn hjn hroot, h.nodes, h.tCurrent, h.mSp, h.mR, h.calls, ?_, Or.inr hjfind⟩
            intro z hz
            rw [hmerge, h.find z hz]
            split
            · -- only the join node is in its set, unless that is already the set of `r`
              rename_i hzj
              rcases h.place with hself | hself
              · exact absurd (hzj.trans hself) (hother z hz)
              · rw [hpfind, hzj, hself]
            · rfl
          obtain ⟨hres, hend⟩ := ih hstep hps'
          exact ⟨hres, fun _ => hend (Or.inr hjfind)⟩

/-! ## The join node

`endJoin` is the code behind the first loop, and `Finished` its three outcomes, by `num_attached`. What all three have
to show is that the segment of the block can be one segment again, which goes on at the join node: `Live.of_joined`
asks for an attached set there and for a successor of every strand of the block that is not attached. Where nothing is
attached there is no such set, and none is needed, since the whole block is one unattached set. -/

/-- What the second and the third loop make of the state after the first one; `c + 1` is the join node. -/
inductive Finished (σ : State) (c : Nat) : Nat → List Nat → State → List General.Op → Prop where
  | none {ps} : Finished σ c 0 ps (σ.merge c (c + 1)) []
  | one {ps σ₁ σ'} (r : Nat) (hid : 0 < (σ.node r).id) (hself : (σ.node r).attPred = some r)
      (hps : ∀ p ∈ ps, σ.attached p = true → σ.find p = r) (hex : ∃ p ∈ ps, σ.attached p = true)
      (h₁ : JoinAt σ σ₁ (c + 1) r) (hr : σ₁.find (c + 1) = r) (h' : LinkedUp σ₁ σ' (c + 1) ps) :
      Finished σ c 1 ps σ' (linkOps σ₁ (c + 1) ps)
  | many {num ps σ₁ σ'} (hnum : 2 ≤ num)
      (h₁ : σ₁ = (σ.addNode.1.modify (c + 1) fun n => { n with id := σ.addNode.2 }).setSelf (c + 1))
      (hok : NodesOk σ₁) (h' : LinkedUp σ₁ σ' (c + 1) ps) :
      Finished σ c num ps σ' (.addNode :: linkOps σ₁ (c + 1) ps)

section Finish

variable {c fake num : Nat} {ps : List Nat}

/-- Only the join node is in its set. -/
theorem Joining.find_ne (hj : Joining σ c items fake num ps) (z : Nat) (hz : z ≠ c + 1) : σ.find z ≠ c + 1 := by
  have hlen := hj.length
  rcases Nat.lt_or_ge c z with hlt | hle
  · have hout : σ.find z = z := by
      apply UF.rep_of_isRoot
      apply UF.parentOf_of_length_le
      rw [hj.ok.size]
      omega
    rw [hout]
    exact hz
  · rcases Nat.lt_or_ge z (start items) with hlow | hge
    · have hfind := hj.below.find_lt z hlow
      have hle := hj.span.le
      omega
    · have hin := hj.span.within z hge hle
      omega

/-- What a new segment needs when the join node is in an attached set of its own, or of a join parent: all strands
    of the block that are not attached have a successor now, and the join node is where the segment goes on. -/
theorem Live.of_joined {r : Nat} (hj : Joining σ c items fake num ps)
    (hfind : ∀ z, z ≤ c → σ'.find z = σ.find z) (hnode : ∀ z, z < start items → σ'.node z = σ.node z)
    (hpred : ∀ z, z ≤ c → (σ'.node z).attPred = (σ.node z).attPred)
    (hatt : ∀ z, z ≤ c → σ'.attached z = σ.attached z) (hstart : σ.attached (start items) = true)
    (hjoin : σ'.find (c + 1) = r) (hr : start items ≤ r ∧ r ≤ c + 1) (hid : 0 < (σ'.node r).id)
    (hself : (σ'.node r).attPred = some r) : Live σ' items (c + 1) := by
  have hle := hj.span.le
  have hstart' : σ'.attached (start items) = true := by
    rw [hatt _ hle]
    exact hstart
  refine ⟨Starts.of_attached hstart', ⟨⟨Nat.le_succ_of_le hle, ?_, ?_⟩, ?_, ?_⟩, ?_⟩
  · intro z hza hzw
    rcases Nat.lt_or_ge c z with hlt | hge
    · obtain rfl : z = c + 1 := by omega
      rw [hjoin]
      exact hr
    · rw [hfind z hge]
      have hin := hj.span.within z hza hge
      omega
  · intro z hza hzw
    unfold State.setOf
    rcases Nat.lt_or_ge c z with hlt | hge
    · obtain rfl : z = c + 1 := by omega
      rw [hjoin, hself]
      simp
    · have hin := hj.span.within z hza hge
      rw [hfind z hge, hpred _ hin.2]
      exact hj.span.pred z hza hge
  · intro h
    rw [hstart'] at h
    cases h
  · intro _
    refine ⟨?_, ?_⟩
    · rw [State.attached_iff, hjoin]
      exact hid
    · unfold State.setOf
      rw [hjoin]
      exact hself
  · refine hj.below.congr ⟨fun z hz => hfind z (by omega), hnode⟩

/-- An attached node is not the join node. -/
theorem Joining.le_of_attached (hj : Joining σ c items fake num ps) {z : Nat} (hz : σ.attached z = true) :
    z ≤ c := by
  have hlen := hj.length
  rw [State.attached_iff] at hz
  by_contra hlt
  rcases Nat.lt_or_ge (c + 1) z with hgt | hle
  · have hout : σ.find z = z := by
      apply UF.rep_of_isRoot
      apply UF.parentOf_of_length_le
      rw [hj.ok.size]
      omega
    rw [hout, State.node_of_length_le (by omega)] at hz
    exact absurd hz (Nat.lt_irrefl 0)
  · obtain rfl : z = c + 1 := by omega
    rw [hj.joinRoot, hj.joinNode] at hz
    exact absurd hz (Nat.lt_irrefl 0)

/-- The code after the first loop. -/
def endJoin (σ : State) (j num : Nat) (ps : List Nat) : Option State := do
  let σ ← placeJoin σ j num ps
  if 0 < num then do
      guard (σ.attached j)
      ps.foldlM (linkJoin j) σ
    else some σ

/-- Nothing is attached: the join node goes on in the set of the block. -/
theorem endJoin_none (hj : Joining σ c items fake 0 ps) (ha : σ.attached (start items) = false)
    (hsucc : (σ.setOf (start items)).attSucc = none) (hps : ∀ p ∈ ps, σ.find p = σ.find (start items)) :
    endJoin σ (c + 1) 0 ps = some (σ.merge c (c + 1)) ∧ Kept σ (σ.merge c (c + 1)) [] ∧
      NodesOk (σ.merge c (c + 1)) ∧ Live (σ.merge c (c + 1)) items (c + 1) := by
  have hlen := hj.length
  have hle := hj.span.le
  have hc : c < σ.nodes.length := by omega
  have hjn : c + 1 < σ.nodes.length := by omega
  have hcfind := hps c hj.cur
  have hid : (σ.node (σ.find (c + 1))).id = 0 := by rw [hj.joinRoot, hj.joinNode]
  have hmerge := State.find_merge hj.ok hc hjn
  have hset := State.setOf_merge hj.ok hc hjn
  have hatt := State.attached_merge hj.ok hc hjn
  have hcatt : σ.attached c = false := by rw [State.attached_congr hcfind, ha]
  have hagree : Agree (c + 1) σ (σ.merge c (c + 1)) := by
    refine Agree.merge hj.ok hc hjn ?_
    intro z hz
    rw [hj.joinRoot]
    exact hj.find_ne z (Nat.ne_of_lt hz)
  have hok := hj.ok.merge hc hjn (Or.inl hid)
  have hafind : (σ.merge c (c + 1)).find (start items) = σ.find (start items) :=
    hagree.find _ (Nat.lt_succ_of_le hle)
  have hain := hj.span.within _ (Nat.le_refl _) hle
  have haset := hagree.setOf (Nat.lt_succ_of_le hle) (Nat.lt_succ_of_le hain.2)
  have haatt := hagree.attached (Nat.lt_succ_of_le hle) (Nat.lt_succ_of_le hain.2)
  have hcin := hj.span.within c hle (Nat.le_refl c)
  refine ⟨?_, Kept.merge hj.ok hc hjn (Or.inl hid), hok, ?_, ⟨⟨Nat.le_succ_of_le hle, ?_, ?_⟩, ?_, ?_⟩,
    hj.below.congr (hagree.mono (Nat.le_succ_of_le hle))⟩
  · have hpred : (σ.setOf c).attPred ≠ none := hj.span.pred c hle (Nat.le_refl c)
    have hjatt : (σ.merge c (c + 1)).attached (c + 1) = false := by rw [hatt, if_pos rfl, hcatt]
    have hjset : (σ.merge c (c + 1)).setOf (c + 1) = σ.setOf c := by rw [hset, if_pos rfl]
    simp [endJoin, placeJoin, hj.tCurrent, hjatt, hjset, hpred, guard]
  · exact hj.starts.congr hagree (Nat.lt_succ_self c) hj.span hj.below
  · intro z hza hzw
    rw [hmerge]
    split
    · omega
    · rcases Nat.lt_or_ge c z with hlt | hge
      · obtain rfl : z = c + 1 := by omega
        exact absurd rfl ‹_›
      · have hin := hj.span.within z hza hge
        omega
  · intro z hza hzw
    rw [hset]
    split
    · exact hj.span.pred c hle (Nat.le_refl c)
    · rcases Nat.lt_or_ge c z with hlt | hge
      · obtain rfl : z = c + 1 := by omega
        exact absurd rfl ‹_›
      · exact hj.span.pred z hza hge
  · intro _
    rw [hafind, haset, hmerge, if_pos rfl, hcfind]
    exact ⟨rfl, hsucc⟩
  · intro h
    rw [haatt, ha] at h
    cases h

/-- Linking the join parents is one more step that keeps what a join keeps. -/
theorem LinkedUp.kept {σ'' : State} {j : Nat} {ops : List General.Op} (h : Kept σ σ' ops)
    (h' : LinkedUp σ' σ'' j ps) : Kept σ σ'' (ops ++ linkOps σ' j ps) where
  length := h'.length.trans h.length
  tCurrent := h'.tCurrent.trans h.tCurrent
  mSp := h'.mSp.trans h.mSp
  attached z hz := by
    rw [h'.attached]
    exact h.attached z hz
  sbag z := by
    rw [h'.node, ← h.sbag z]
    split <;> rfl
  did := h.did.trans h'.did

/-- The third loop after the join node has got a set. -/
theorem linkJoin_live {σ₁ : State} {r : Nat} (hj : Joining σ c items fake num ps) (hok : NodesOk σ₁)
    (hlen : σ₁.nodes.length = σ.nodes.length) (hroom : σ.nodes.length < 2 ^ 64)
    (hfind : ∀ z, z ≤ c → σ₁.find z = σ.find z) (hnode : ∀ z, z ≤ c → σ₁.node z = σ.node z)
    (hstart : σ.attached (start items) = true) (hjoin : σ₁.find (c + 1) = r)
    (hr : start items ≤ r ∧ r ≤ c + 1) (hid : 0 < (σ₁.node r).id) (hself : (σ₁.node r).attPred = some r) :
    ∃ σ', ps.foldlM (linkJoin (c + 1)) σ₁ = some σ' ∧ LinkedUp σ₁ σ' (c + 1) ps ∧ Live σ' items (c + 1) := by
  have hjlen := hj.length
  have hle := hj.span.le
  obtain ⟨σ', hrun, h⟩ := linkJoins_spec (c + 1) hok (by rw [hlen]; exact hroom) (fun p hp => by
    have hin := hj.parents p hp
    show p < σ₁.nodes.length
    omega)
  refine ⟨σ', hrun, h, Live.of_joined (r := r) hj ?_ ?_ ?_ ?_ hstart ?_ hr ?_ ?_⟩
  · intro z hz
    rw [h.find, hfind z hz]
  · intro z hz
    rw [h.node, hnode z (by omega), if_neg]
    -- the roots of the join parents are in the span
    rintro ⟨-, p, hp, hpz⟩
    have hin := hj.parents p hp
    have hroot := hj.span.within p hin.1 hin.2
    rw [hfind p hin.2] at hpz
    omega
  · intro z hz
    rw [h.node, hnode z hz]
    split <;> rfl
  · intro z hz
    have hzc : σ.find z ≤ c := by
      rcases Nat.lt_or_ge z (start items) with hlt | hge
      · have hlow := hj.below.find_lt z hlt
        omega
      · exact (hj.span.within z hge hz).2
    rw [h.attached]
    unfold State.attached State.setOf
    rw [hfind z hz, hnode _ hzc]
  · rw [h.find, hjoin]
  · rw [h.id]
    exact hid
  · rw [h.node]
    split
    · exact hself
    · exact hself

/-- One attached set is left, and takes in the join node. After that all join parents that are attached are in one
    set with it, and the edges to it are edges of a node to itself, which `add_edge` leaves out. -/
theorem endJoin_one {r : Nat} (hj : Joining σ c items fake 1 ps) (hroom : σ.nodes.length < 2 ^ 64)
    (ha : σ.attached (start items) = true) (hid : 0 < (σ.node r).id) (hself : (σ.node r).attPred = some r)
    (hps : ∀ p ∈ ps, σ.attached p = true → σ.find p = r) (hex : ∃ p ∈ ps, σ.attached p = true) :
    ∃ σ₁ σ', endJoin σ (c + 1) 1 ps = some σ' ∧ JoinAt σ σ₁ (c + 1) r ∧ σ₁.find (c + 1) = r ∧
      LinkedUp σ₁ σ' (c + 1) ps ∧ Kept σ σ' (linkOps σ₁ (c + 1) ps) ∧ Live σ' items (c + 1) := by
  have hlen := hj.length
  have hjid : (σ.node (c + 1)).id = 0 := by rw [hj.joinNode]
  have hstay : JoinAt σ σ (c + 1) r := ⟨hj.ok, rfl, rfl, rfl, rfl, rfl, fun _ _ => rfl, Or.inl hj.joinRoot⟩
  obtain ⟨h₁, hend⟩ := mergeJoins_spec hj.find_ne (by omega) hjid hstay (fun p hp => by
    have hin := hj.parents p hp
    exact ⟨by omega, by omega, hps p hp⟩)
  have hjoin := hend (Or.inl hex)
  have hmerged : placeJoin σ (c + 1) 1 ps = some (ps.foldl (mergeJoin (c + 1)) σ) := rfl
  generalize ps.foldl (mergeJoin (c + 1)) σ = σ₁ at h₁ hjoin hmerged
  -- the set of `r` is the one of a join parent
  have hr : start items ≤ r ∧ r ≤ c := by
    obtain ⟨p, hp, hatt⟩ := hex
    have hin := hj.parents p hp
    rw [← hps p hp hatt]
    exact hj.span.within p hin.1 hin.2
  have hid₁ : 0 < (σ₁.node r).id := by
    rw [h₁.node]
    exact hid
  have hself₁ : (σ₁.node r).attPred = some r := by
    rw [h₁.node]
    exact hself
  obtain ⟨σ', hrun, h', hlive⟩ := linkJoin_live hj h₁.ok (by rw [h₁.nodes]) hroom
    (fun z hz => h₁.find z (by omega)) (fun z _ => h₁.node z) ha hjoin (by omega) hid₁ hself₁
  have hjatt : σ₁.attached (c + 1) = true := by
    rw [State.attached_iff, hjoin]
    exact hid₁
  have hk₁ : Kept σ σ₁ [] := by
    refine ⟨by rw [h₁.nodes], h₁.tCurrent, h₁.mSp, ?_, fun z => by rw [h₁.node], Did.of_same h₁.calls h₁.mR⟩
    intro z hz
    have hzc := hj.le_of_attached hz
    rw [h₁.attached (by omega)]
    exact hz
  refine ⟨σ₁, σ', ?_, h₁, hjoin, h', h'.kept hk₁, hlive⟩
  simp only [endJoin, hmerged, Option.bind_eq_bind, Option.bind_some, Nat.zero_lt_one, if_true, hjatt, guard, pure]
  exact hrun

/-- Several attached branches: the join node is an attached set of its own, with the next node of `R`. It is made
    before the edges to it are added, so these edges go to the newest node. -/
theorem endJoin_many (hj : Joining σ c items fake num ps) (hroom : σ.nodes.length < 2 ^ 64) (hnum : 2 ≤ num)
    (ha : σ.attached (start items) = true) :
    ∃ σ₁ σ', endJoin σ (c + 1) num ps = some σ' ∧
      σ₁ = (σ.addNode.1.modify (c + 1) fun n => { n with id := σ.addNode.2 }).setSelf (c + 1) ∧ NodesOk σ₁ ∧
      LinkedUp σ₁ σ' (c + 1) ps ∧ Kept σ σ' (.addNode :: linkOps σ₁ (c + 1) ps) ∧ Live σ' items (c + 1) := by
  have hlen := hj.length
  have hle := hj.span.le
  have hjn : c + 1 < σ.nodes.length := by omega
  have hjid : (σ.node (c + 1)).id = 0 := by rw [hj.joinNode]
  have hpos : 0 < σ.addNode.2 := Nat.lt_of_le_of_lt (Nat.zero_le _) (hj.ok.id_lt 0)
  have hok₀ := hj.ok.giveId hjn hj.joinRoot hjid
  have hnode₀ := State.node_modify (σ := σ.addNode.1) hjn fun n => { n with id := σ.addNode.2 }
  have hlt₀ : c + 1 < (σ.addNode.1.modify (c + 1) fun n => { n with id := σ.addNode.2 }).nodes.length := by
    simp only [State.modify, State.addNode, List.length_modify]
    exact hjn
  have hself₀ := State.node_modify hlt₀ fun n => { n with attPred := some (c + 1), attSucc := some (c + 1) }
  have hplace : placeJoin σ (c + 1) num ps =
      some ((σ.addNode.1.modify (c + 1) fun n => { n with id := σ.addNode.2 }).setSelf (c + 1)) := by
    have hne : num ≠ 0 := by omega
    have hne' : num ≠ 1 := by omega
    simp [placeJoin, hne, hne', hjid, guard]
  have hok₁ : NodesOk ((σ.addNode.1.modify (c + 1) fun n => { n with id := σ.addNode.2 }).setSelf (c + 1)) := by
    refine hok₀.modify hlt₀ (fun _ => rfl) ?_
    intro p hp
    obtain rfl : c + 1 = p := Option.some.inj hp
    rw [hnode₀, if_pos rfl]
    exact hpos
  have hnode₁ : ∀ z, ((σ.addNode.1.modify (c + 1) fun n => { n with id := σ.addNode.2 }).setSelf (c + 1)).node z =
      if z = c + 1 then ⟨some (c + 1), some (c + 1), σ.addNode.2, none⟩ else σ.node z := by
    intro z
    have hjnode : σ.addNode.1.node (c + 1) = ⟨none, none, 0, none⟩ := hj.joinNode
    show (State.modify _ _ _).node z = _
    rw [hself₀, hnode₀, hnode₀, hjnode]
    split
    · rw [if_pos rfl]
    · rfl
  have hfind₁ : ∀ z, ((σ.addNode.1.modify (c + 1) fun n => { n with id := σ.addNode.2 }).setSelf (c + 1)).find z =
      σ.find z := fun _ => rfl
  have hk₁ : Kept σ ((σ.addNode.1.modify (c + 1) fun n => { n with id := σ.addNode.2 }).setSelf (c + 1))
      [.addNode] := by
    refine ⟨by simp [State.setSelf, State.modify, State.addNode], rfl, rfl, ?_, ?_, rfl, rfl⟩
    · intro z hz
      have hzc := hj.le_of_attached hz
      have hne := hj.find_ne z (by omega)
      rw [State.attached_iff, hfind₁, hnode₁, if_neg hne]
      exact State.attached_iff.mp hz
    · intro z
      rw [hnode₁]
      split
      · rename_i hz
        rw [hz, hj.joinNode]
      · rfl
  generalize (σ.addNode.1.modify (c + 1) fun n => { n with id := σ.addNode.2 }).setSelf (c + 1) = σ₁
    at hplace hok₁ hnode₁ hfind₁ hk₁
  have hjoin : σ₁.find (c + 1) = c + 1 := by rw [hfind₁, hj.joinRoot]
  obtain ⟨σ', hrun, h', hlive⟩ := linkJoin_live hj hok₁ hk₁.length hroom (fun z _ => hfind₁ z)
    (fun z hz => by rw [hnode₁, if_neg (by omega)]) ha hjoin (by omega)
    (by rw [hnode₁, if_pos rfl]; exact hpos) (by rw [hnode₁, if_pos rfl])
  have hjatt : σ₁.attached (c + 1) = true := by
    rw [State.attached_iff, hjoin, hnode₁, if_pos rfl]
    exact hpos
  refine ⟨σ₁, σ', ?_, rfl, hok₁, h', h'.kept hk₁, hlive⟩
  have hnum' : 0 < num := by omega
  simp only [endJoin, hplace, Option.bind_eq_bind, Option.bind_some, hnum', if_true, hjatt, guard, pure]
  exact hrun

/-- **The join node gets its set**, whatever the branches were. -/
theorem endJoin_spec (hj : Joining σ c items fake num ps) (hroom : σ.nodes.length < 2 ^ 64) :
    ∃ σ' ops, endJoin σ (c + 1) num ps = some σ' ∧ Finished σ c num ps σ' ops ∧ Kept σ σ' ops ∧ NodesOk σ' ∧
      Live σ' items (c + 1) := by
  have hb := hj.branches
  cases hb with
  | none ha hfake hsucc hps =>
      obtain ⟨hrun, hk, hok, hlive⟩ := endJoin_none hj ha hsucc hps
      exact ⟨_, _, hrun, .none, hk, hok, hlive⟩
  | one r ha hfake hid hself hps hex =>
      obtain ⟨σ₁, σ', hrun, h₁, hr, h', hk, hlive⟩ := endJoin_one hj hroom ha hid hself hps hex
      exact ⟨σ', _, hrun, .one r hid hself hps hex h₁ hr h', hk, h'.ok, hlive⟩
  | many hnum ha hfake =>
      obtain ⟨σ₁, σ', hrun, h₁, hok₁, h', hk, hlive⟩ := endJoin_many hj hroom hnum ha
      exact ⟨σ', _, hrun, .many hnum h₁ hok₁ h', hk, h'.ok, hlive⟩

end Finish

/-! ## `perform_join` and `at_sync`

The loops together, and before them the call of `m_sp.at_sync`. `Synced` lists the states on the way, so that a proof
about a sync can follow them one by one. -/

/-- Before the first fork is handled. -/
theorem Joining.first {forks : List (Nat × Nat)} (hok : NodesOk σ)
    (hl : Live σ (forks.map joinItem ++ items) σ.tCurrent) (hcur : σ.tCurrent + 1 = σ.nodes.length) :
    Joining (σ.newNode 0).1 σ.tCurrent (forks.map joinItem ++ items) σ.tCurrent
      (if (σ.newNode 0).1.attached σ.tCurrent then 1 else 0) [σ.tCurrent] := by
  have hlt : σ.tCurrent < σ.nodes.length := hcur ▸ Nat.lt_succ_self _
  have hnew := newNode_new hok.forest 0
  have hl' := hl.congr hnew.agree hlt
  have hle := hl.seg.le
  refine ⟨hok.newNode, rfl, by rw [hnew.length]; omega, by rw [hcur, hnew.new], ?_, hl'.seg.toSpan, hle,
    Nat.le_refl _, hl'.starts, hl'.below, ?_, by simp, ?_⟩
  · rw [hcur, hnew.find, NewNode.find_new hok]
  · intro p hp
    obtain rfl : p = σ.tCurrent := by simpa using hp
    exact ⟨hle, Nat.le_refl _⟩
  · cases ha : (σ.newNode 0).1.attached (start (forks.map joinItem ++ items)) with
    | false =>
        obtain ⟨hfind, hsucc⟩ := hl'.seg.free ha
        rw [State.attached_congr hfind, ha]
        refine Branches.none ha hfind hsucc ?_
        intro p hp
        obtain rfl : p = σ.tCurrent := by simpa using hp
        exact hfind
    | true =>
        obtain ⟨hatt, hself⟩ := hl'.seg.held ha
        rw [hatt]
        refine Branches.one _ ha hatt (State.attached_iff.mp hatt) hself ?_ ⟨_, by simp, hatt⟩
        intro p hp _
        obtain rfl : p = σ.tCurrent := by simpa using hp
        rfl

/-- What a sync does to the state, step by step; `c` is the strand before it. -/
inductive Synced (σ : State) (items : List Item) (forks : List (Nat × Nat)) : State → List General.Op → Prop where
  | mk {σ₁ σ' fake num ps ops ops'}
      (h₁ : JoinRun σ.tCurrent items (σ.newNode 0).1 forks σ.tCurrent
        (if (σ.newNode 0).1.attached σ.tCurrent then 1 else 0) [σ.tCurrent] σ₁ fake num ps ops)
      (hj : Joining σ₁ σ.tCurrent items fake num ps) (h' : Finished σ₁ σ.tCurrent num ps σ' ops') :
      Synced σ items forks σ' (ops ++ ops')

/-- **`perform_join` returns** the join node. The assertion on the number of join parents holds because the first
    loop appends one for each fork, to the one that was there. -/
theorem performJoin_spec {forks : List (Nat × Nat)} (hok : NodesOk σ) (hroom : σ.nodes.length + 1 < 2 ^ 64)
    (hl : Live σ (forks.map joinItem ++ items) σ.tCurrent) (hcur : σ.tCurrent + 1 = σ.nodes.length)
    {f : SframeData} (hforks : f.forkStack = forks.map entry) :
    ∃ σ' ops, performJoin σ f = some (σ', σ.nodes.length) ∧ Synced σ items forks σ' ops ∧
      Kept (σ.newNode 0).1 σ' ops ∧ NodesOk σ' ∧ Live σ' items σ.nodes.length := by
  have hlt : σ.tCurrent < σ.nodes.length := hcur ▸ Nat.lt_succ_self _
  have hnew := newNode_new hok.forest 0
  have hroom₁ : (σ.newNode 0).1.nodes.length < 2 ^ 64 := by
    rw [hnew.length]
    exact hroom
  obtain ⟨σ₁, fake, num, ps, ops, hrun₁, hjr, hk₁, hj, hlen⟩ := joinForks_spec (Joining.first hok hl hcur) hroom₁
  obtain ⟨σ', ops', hrun', hfin, hk', hok', hlive⟩ := endJoin_spec hj (by rw [hk₁.length]; exact hroom₁)
  rw [hcur] at hlive hrun'
  refine ⟨σ', ops ++ ops', ?_, .mk hjr hj hfin, hk₁.trans hk', hok', hlive⟩
  have hpred : (σ.setOf σ.tCurrent).attPred ≠ none := hl.seg.pred _ hl.seg.le (Nat.le_refl _)
  have hroot : (σ.newNode 0).1.find σ.nodes.length = σ.nodes.length := by
    rw [hnew.find, NewNode.find_new hok]
  have hpred' : (σ'.setOf σ.nodes.length).attPred ≠ none := hlive.seg.pred _ hlive.seg.le (Nat.le_refl _)
  have hlen' : ps.length = f.forkStack.length + 1 := by
    rw [hlen, hforks, List.length_map]
    simp [Nat.add_comm]
  have hv : (σ.newNode 0).2 = σ.nodes.length := rfl
  have hcur₁ : (σ.newNode 0).1.tCurrent = σ.tCurrent := rfl
  rw [← hforks] at hrun₁
  obtain ⟨σ₂, hplace, hlink⟩ := Option.bind_eq_some_iff.mp hrun'
  simp only [performJoin, hpred, hplace, hroot, hv, hcur₁, hrun₁, hlen', Option.bind_eq_bind, Option.bind_some, guard,
    if_true, pure, not_false_eq_true, ne_eq]
  by_cases hnum : 0 < num
  · rw [if_pos hnum] at hlink ⊢
    obtain ⟨u, hguard, hlink⟩ := Option.bind_eq_some_iff.mp hlink
    simp only [guard, pure] at hguard
    rw [hguard]
    simp [hlink, hpred']
  · rw [if_neg hnum] at hlink ⊢
    obtain rfl : σ₂ = σ' := Option.some.inj hlink
    simp [hpred']

/-- What an access of the running strand stores is nothing to the sets. -/
theorem Live.setBag {w : Nat} (hl : Live σ items w) (hw : w < σ.nodes.length) (bag : Option Nat) :
    Live (σ.setCurrent w bag) items w := by
  have hnode := State.node_setCurrent hw bag
  have hfind : ∀ z, (σ.setCurrent w bag).find z = σ.find z := fun _ => rfl
  have hfields : ∀ z, ((σ.setCurrent w bag).node z).id = (σ.node z).id ∧
      ((σ.setCurrent w bag).node z).attPred = (σ.node z).attPred ∧
      ((σ.setCurrent w bag).node z).attSucc = (σ.node z).attSucc := by
    intro z
    rw [hnode]
    split
    · rename_i hz
      rw [hz]
      exact ⟨rfl, rfl, rfl⟩
    · exact ⟨rfl, rfl, rfl⟩
  have hatt : ∀ z, (σ.setCurrent w bag).attached z = σ.attached z := by
    intro z
    unfold State.attached State.setOf
    rw [hfind, (hfields _).1]
  have hpred : ∀ z, ((σ.setCurrent w bag).setOf z).attPred = (σ.setOf z).attPred := fun z => (hfields _).2.1
  have hsucc : ∀ z, ((σ.setCurrent w bag).setOf z).attSucc = (σ.setOf z).attSucc := fun z => (hfields _).2.2
  have hfrom : ∀ {c fork}, FromFork σ c fork → FromFork (σ.setCurrent w bag) c fork := by
    intro c fork h hc
    rw [hatt] at hc
    rw [hpred, hpred]
    exact h hc
  refine ⟨?_, ⟨⟨hl.seg.le, hl.seg.within, ?_⟩, ?_, ?_⟩, ?_⟩
  · have hst := hl.starts
    cases items with
    | nil => exact (hatt 0).trans hst
    | cons item rest =>
        cases item with
        | join fork ljp => exact hfrom hst
        | child fork => exact hfrom hst
        | future fork => exact (hatt (fork + 1)).trans hst
  · intro z hza hzw
    rw [hpred]
    exact hl.seg.pred z hza hzw
  · intro h
    rw [hatt] at h
    rw [hfind, hfind, hsucc]
    exact hl.seg.free h
  · intro h
    rw [hatt] at h
    rw [hatt, hpred, hfind]
    exact hl.seg.held h
  · refine hl.below.congr ⟨fun z _ => hfind z, ?_⟩
    intro z hz
    have hle := hl.seg.le
    rw [hnode, if_neg (by omega)]

/-- **`at_sync`**: the block ends, and its join node runs. -/
theorem atSync_spec {forks : List (Nat × Nat)} (hok : NodesOk σ) (hroom : σ.nodes.length + 1 < 2 ^ 64)
    (hl : Live σ (forks.map joinItem ++ items) σ.tCurrent) (hcur : σ.tCurrent + 1 = σ.nodes.length)
    (hne : forks ≠ []) {f : SframeData} (hforks : f.forkStack = forks.map entry) {sp : Bags}
    {fsp : Structured.SframeData} (hbag : Structured.ds.atSync σ.mSp f.sp = some (sp, fsp)) :
    ∃ σ₁ σ' ops, atSync σ f = some (σ', { f with sp := fsp, forkStack := [] }) ∧
      Synced { σ with mSp := sp } items forks σ₁ ops ∧ σ' = σ₁.setCurrent σ.nodes.length fsp.sbag ∧
      Advanced σ σ' sp fsp.sbag ops ∧ Live σ' items σ.nodes.length := by
  have hoks := hok.bags sp
  obtain ⟨σ₁, ops, hrun, hsync, hk, hok₁, hlive⟩ := performJoin_spec hoks hroom (hl.bags sp) hcur hforks
  have hnew := newNode_new hoks.forest 0
  have hlt : σ.nodes.length < σ₁.nodes.length := by
    rw [hk.length, hnew.length]
    exact Nat.lt_succ_self _
  have hnode := State.node_setCurrent hlt fsp.sbag
  have hlive' : Agree σ.nodes.length σ₁ (σ₁.setCurrent σ.nodes.length fsp.sbag) :=
    ⟨fun _ _ => rfl, fun z hz => by rw [hnode, if_neg (Nat.ne_of_lt hz)]⟩
  have hid : ∀ z, ((σ₁.setCurrent σ.nodes.length fsp.sbag).node z).id = (σ₁.node z).id := by
    intro z
    rw [hnode]
    split
    · rename_i hz
      rw [hz]
    · rfl
  have hatt : ∀ z, (σ₁.setCurrent σ.nodes.length fsp.sbag).attached z = σ₁.attached z := by
    intro z
    unfold State.attached State.setOf
    rw [show (σ₁.setCurrent σ.nodes.length fsp.sbag).find z = σ₁.find z from rfl, hid]
  have hdid : Did σ σ₁ ops := ⟨hk.did.calls, hk.did.run⟩
  refine ⟨σ₁, _, ops, ?_, hsync, rfl, ⟨hok₁.setCurrent hlt _, ?_, rfl, ?_, ?_, ?_, ?_, hdid.setCurrent⟩, ?_⟩
  · have hlen : f.forkStack.length ≠ 0 := by
      rw [hforks, List.length_map]
      exact fun h => hne (List.length_eq_zero_iff.mp h)
    simp only [atSync, hbag, Option.bind_eq_bind, Option.bind_some, guard, if_pos hlen, pure, hrun]
  · show (σ₁.nodes.modify _ _).length = _
    rw [List.length_modify, hk.length, hnew.length]
  · exact hk.mSp
  · intro z hz hz'
    rw [hatt]
    apply hk.attached
    rw [hnew.agree.attached hz (hoks.find_lt hz)]
    exact hz'
  · intro z hz
    rw [hnode, if_neg (Nat.ne_of_lt hz), hk.sbag, hnew.old z hz]
    rfl
  · rw [hnode, if_pos rfl]
  · exact hlive.setBag hlt fsp.sbag

end FOrder.Futurerd.Nonblock
