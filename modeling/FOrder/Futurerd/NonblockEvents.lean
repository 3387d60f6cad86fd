import FOrder.Futurerd.NonblockChain

/-!
# `Futurerd.NonblockEvents` — the events of MultiBags+ that end no block

A spawn, the return of a child, a create, a finish and a get each start one strand: none of their assertions fails,
and the segments are again as `Live` says.

Each `_spec` has the same shape. It assumes `NodesOk` and `Live` before the event, and that the corresponding call
on the bags returns; it concludes that the event returns, which node is new and with which data (`NewNode`), which
calls `R` has seen (`Advanced`, with `Did` inside), and `Live` afterwards. Whatever is proved of an event later, it
is proved from `NewNode`, `Attachified` and the calls, and no proof unfolds the code of an event again.

Which events attach what is the heart of MultiBags+: a spawn and the return of a child make unattached sets, which
costs no node of `R`; a create, a finish and a get attach the running strand and make a new attached set behind it.
-/

namespace FOrder.Futurerd.Nonblock

/-- What every start of a strand does: `ops` are the calls on `R`, `bag` is what accesses of the strand store. -/
structure Advanced (σ σ' : State) (sp : Bags) (bag : Option Nat) (ops : List General.Op) : Prop where
  ok : NodesOk σ'
  length : σ'.nodes.length = σ.nodes.length + 1
  tCurrent : σ'.tCurrent = σ.nodes.length
  mSp : σ'.mSp = sp
  attached : ∀ z, z < σ.nodes.length → σ.attached z = true → σ'.attached z = true
  sbag : ∀ z, z < σ.nodes.length → (σ'.node z).sbag = (σ.node z).sbag
  newBag : (σ'.node σ.nodes.length).sbag = bag
  did : Did σ σ' ops

variable {σ σ' : State} {items : List Item}

/-! ## New nodes

All five events make a node, give it an attached predecessor, or an id of its own, and let it run. The small lemmas
here are what such a chain of updates does to the nodes; `Advanced` sums it up. -/

/-- The bag of the running strand is stored at its node. -/
theorem State.node_setCurrent {x : Nat} (hx : x < σ.nodes.length) (bag : Option Nat) (z : Nat) :
    (σ.setCurrent x bag).node z = if z = x then { σ.node x with sbag := bag } else σ.node z :=
  State.node_modify hx _ z

/-- The bags are nothing to the nodes. -/
theorem NewNode.bags {sp : Bags} {n : Node} (h : NewNode { σ with mSp := sp } σ' n) : NewNode σ σ' n :=
  ⟨h.length, h.find, h.old, h.new⟩

/-- The next node becomes the running one. -/
theorem NewNode.setCurrent {n : Node} (h : NewNode σ σ' n) (bag : Option Nat) :
    NewNode σ (σ'.setCurrent σ.nodes.length bag) { n with sbag := bag } := by
  have hlt : σ.nodes.length < σ'.nodes.length := by
    rw [h.length]
    exact Nat.lt_succ_self _
  have hnode := State.node_setCurrent hlt bag
  refine ⟨?_, h.find, ?_, ?_⟩
  · show (σ'.nodes.modify _ _).length = _
    rw [List.length_modify]
    exact h.length
  · intro z hz
    rw [hnode, if_neg (Nat.ne_of_lt hz)]
    exact h.old z hz
  · rw [hnode, if_pos rfl, h.new]

/-- The new node is changed once more. -/
theorem NewNode.modify {n : Node} (h : NewNode σ σ' n) (g : Node → Node) :
    NewNode σ (σ'.modify σ.nodes.length g) (g n) := by
  have hlt : σ.nodes.length < σ'.nodes.length := by
    rw [h.length]
    exact Nat.lt_succ_self _
  have hnode := State.node_modify hlt g
  refine ⟨?_, h.find, ?_, ?_⟩
  · show (σ'.nodes.modify _ _).length = _
    rw [List.length_modify]
    exact h.length
  · intro z hz
    rw [hnode, if_neg (Nat.ne_of_lt hz)]
    exact h.old z hz
  · rw [hnode, if_pos rfl, h.new]

/-- Calls on `R` afterwards. -/
theorem NewNode.same {σ'' : State} {n : Node} (h : NewNode σ σ' n) (hs : SameNodes σ' σ'') : NewNode σ σ'' n where
  length := by
    rw [hs.nodes]
    exact h.length
  find z := (hs.find z).trans (h.find z)
  old z hz := (hs.node z).trans (h.old z hz)
  new := (hs.node _).trans h.new

/-- `new node` makes a node of its own. -/
theorem newNode_new (hwf : UF.WF σ.parent) (id : Nat) : NewNode σ (σ.newNode id).1 ⟨none, none, id, none⟩ where
  length := by simp [State.newNode]
  find z := (UF.add_spec hwf).2.2.1 z
  old z hz := by rw [State.node_newNode, if_neg (Nat.ne_of_lt hz)]
  new := by rw [State.node_newNode, if_pos rfl]

/-- And keeps the invariant. -/
theorem NodesOk.newNode (hok : NodesOk σ) : NodesOk (σ.newNode 0).1 := by
  have hpos : 0 < σ.mR.data.length := Nat.lt_of_le_of_lt (Nat.zero_le _) (hok.id_lt 0)
  exact hok.push 0 rfl rfl hpos (Nat.le_refl _) (by simp [State.newNode])

/-- Nothing was called. -/
theorem Did.of_same (hcalls : σ'.calls = σ.calls) (hR : σ'.mR = σ.mR) : Did σ σ' [] :=
  ⟨by rw [hcalls, List.append_nil], by rw [hR]; rfl⟩

/-- Making a strand the running one calls nothing. -/
theorem Did.setCurrent {ops : List General.Op} {x : Nat} {bag : Option Nat} (h : Did σ σ' ops) :
    Did σ (σ'.setCurrent x bag) ops := ⟨h.calls, h.run⟩

/-- The new node gets an attached predecessor. -/
theorem NewNode.setPred {n : Node} (h : NewNode σ σ' n) (hok' : NodesOk σ') {p : Nat}
    (hp : 0 < (σ.node p).id) :
    NodesOk (σ'.modify σ.nodes.length fun n => { n with attPred := some p }) := by
  have hlt : σ.nodes.length < σ'.nodes.length := by
    rw [h.length]
    exact Nat.lt_succ_self _
  refine hok'.modify hlt (fun _ => rfl) ?_
  intro q hq
  obtain rfl : p = q := Option.some.inj hq
  rw [h.old p (State.lt_of_id hp)]
  exact hp

/-- A strand that starts with a new node and no other change. -/
theorem NewNode.advanced {n : Node} {sp : Bags} {ops : List General.Op} (h : NewNode σ σ' n) (hok : NodesOk σ)
    (hok' : NodesOk σ') (hcur : σ'.tCurrent = σ.nodes.length) (hsp : σ'.mSp = sp) (hdid : Did σ σ' ops) :
    Advanced σ σ' sp n.sbag ops where
  ok := hok'
  length := h.length
  tCurrent := hcur
  mSp := hsp
  attached z hz hatt := by
    rw [State.attached_iff] at hatt ⊢
    rw [h.find, h.old _ (hok.find_lt hz)]
    exact hatt
  sbag z hz := by rw [h.old z hz]
  newBag := by rw [h.new]
  did := hdid

/-- `attachify` before the start of a strand. -/
theorem Advanced.attachify {σ₁ : State} {n : Nat} {sp : Bags} {bag : Option Nat} {ops ops' : List General.Op}
    (h : Advanced σ₁ σ' sp bag ops') (hatt : Attachified σ σ₁ n) (hdid : Did σ σ₁ ops) :
    Advanced σ σ' sp bag (ops ++ ops') where
  ok := h.ok
  length := by rw [h.length, hatt.length]
  tCurrent := by rw [h.tCurrent, hatt.length]
  mSp := h.mSp
  attached z hz hz' := h.attached z (by rw [hatt.length]; exact hz) (hatt.attached hz')
  sbag z hz := by rw [h.sbag z (by rw [hatt.length]; exact hz), hatt.sbag]
  newBag := by
    rw [← hatt.length]
    exact h.newBag
  did := hdid.trans h.did

/-- The bags before the event do not matter. -/
theorem Advanced.bags {sp sp' : Bags} {bag : Option Nat} {ops : List General.Op}
    (h : Advanced { σ with mSp := sp } σ' sp' bag ops) : Advanced σ σ' sp' bag ops :=
  ⟨h.ok, h.length, h.tCurrent, h.mSp, h.attached, h.sbag, h.newBag, h.did.bags⟩

/-- The calls that make an attached set behind the set of `u`. -/
def newOps (σ : State) (u : Nat) : List General.Op :=
  [.addNode, .addEdge (σ.setOf u).id σ.mR.data.length]

/-- `new node(m_R.add_node())`. -/
theorem newNode_addNode (hok : NodesOk σ) :
    NodesOk (σ.addNode.1.newNode σ.addNode.2).1 ∧
      (σ.addNode.1.newNode σ.addNode.2).1.mR.data.length = σ.mR.data.length + 1 ∧
      NewNode σ (σ.addNode.1.newNode σ.addNode.2).1 ⟨none, none, σ.mR.data.length, none⟩ ∧
      Did σ (σ.addNode.1.newNode σ.addNode.2).1 [.addNode] := by
  have hpos : 0 < σ.mR.data.length := Nat.lt_of_le_of_lt (Nat.zero_le _) (hok.id_lt 0)
  have hdata : (σ.addNode.1.newNode σ.addNode.2).1.mR.data.length = σ.mR.data.length + 1 := by
    simp [State.addNode, State.newNode, General.addNode]
  have hnew := newNode_new (σ := σ.addNode.1) hok.forest σ.addNode.2
  refine ⟨?_, hdata, ⟨hnew.length, hnew.find, hnew.old, hnew.new⟩, rfl, rfl⟩
  refine hok.push σ.addNode.2 rfl rfl ?_ ?_ ?_
  · rw [hdata]
    exact Nat.lt_succ_self _
  · rw [hdata]
    exact Nat.le_succ _
  · rw [hdata, if_pos (show 0 < σ.addNode.2 from hpos)]

/-- `att_pred = att_succ = this` for a new attached node. -/
theorem NewNode.setSelf {id : Nat} {bag : Option Nat} (h : NewNode σ σ' ⟨none, none, id, bag⟩)
    (hok' : NodesOk σ') (hid : 0 < id) :
    NodesOk (σ'.setSelf σ.nodes.length) ∧ NewNode σ (σ'.setSelf σ.nodes.length)
      ⟨some σ.nodes.length, some σ.nodes.length, id, bag⟩ := by
  have hlt : σ.nodes.length < σ'.nodes.length := by
    rw [h.length]
    exact Nat.lt_succ_self _
  refine ⟨hok'.modify hlt (fun _ => rfl) ?_, h.modify _⟩
  intro p hp
  obtain rfl : σ.nodes.length = p := Option.some.inj hp
  rw [h.new]
  exact hid

/-- **A new attached set** behind the set of `u`: a node of `R`, an edge to it, and the strand's node with its id,
    which is its own predecessor and successor. -/
theorem newAttached_spec (hok : NodesOk σ) (hroom : σ.nodes.length + 1 < 2 ^ 64) {u : Nat}
    (hu : u < σ.nodes.length) :
    ∃ σ', newAttached σ u = some (σ', σ.nodes.length) ∧ NodesOk σ' ∧ σ'.tCurrent = σ.tCurrent ∧
      σ'.mSp = σ.mSp ∧ σ'.mR.data.length = σ.mR.data.length + 1 ∧
      NewNode σ σ' ⟨some σ.nodes.length, some σ.nodes.length, σ.mR.data.length, none⟩ ∧
      Did σ σ' (newOps σ u) := by
  have hpos : 0 < σ.mR.data.length := Nat.lt_of_le_of_lt (Nat.zero_le _) (hok.id_lt 0)
  obtain ⟨hok₁, hdata₁, hnew₁, hdid₁⟩ := newNode_addNode hok
  have hcur₁ : (σ.addNode.1.newNode σ.addNode.2).1.tCurrent = σ.tCurrent := rfl
  have hsp₁ : (σ.addNode.1.newNode σ.addNode.2).1.mSp = σ.mSp := rfl
  unfold newAttached
  dsimp only
  generalize hσ₁ : (σ.addNode.1.newNode σ.addNode.2).1 = σ₁ at *
  have hset : σ₁.setOf u = σ.setOf u := hnew₁.agree.setOf hu (hok.find_lt hu)
  have hsrc : (σ.setOf u).id < σ.mR.data.length := hok.id_lt _
  obtain ⟨σ₂, hrun, hok₂, hedge⟩ := addEdge_spec hok₁ (by rw [hnew₁.length]; exact hroom)
    (show (σ.setOf u).id < _ by rw [hdata₁]; exact Nat.lt_succ_of_lt hsrc)
    (show σ.addNode.2 < _ by rw [hdata₁]; exact Nat.lt_succ_self _)
  have hnew₂ := hnew₁.same hedge.same
  have hfind : σ₂.find σ.nodes.length = σ.nodes.length := by rw [hnew₂.find, NewNode.find_new hok]
  have hv : (σ.addNode.1.newNode σ.addNode.2).2 = σ.nodes.length := rfl
  obtain ⟨hok₃, hnew₃⟩ := hnew₂.setSelf hok₂ hpos
  refine ⟨σ₂.setSelf σ.nodes.length, ?_, hok₃, ?_, ?_, ?_, hnew₃, ?_⟩
  · rw [hv]
    simp [hset, hrun, hfind, guard]
  · exact hedge.tCurrent.trans hcur₁
  · exact hedge.mSp.trans hsp₁
  · exact hedge.data.trans hdata₁
  · have hdid := hdid₁.trans hedge.did
    exact ⟨hdid.calls, hdid.run⟩

/-! ## Spawns

Neither end of a spawn attaches anything. The child and, when the child is back, the continuation each start a set
that knows the attached set before the fork, and nothing behind it yet. -/

/-- **`at_spawn`**: the child starts an unattached set with the attached predecessor of the fork. The helper's entry
    on the fork stack names fork and child; what came back and where the parent goes on is filled in later. -/
theorem atSpawn_spec (hok : NodesOk σ) (hl : Live σ items σ.tCurrent)
    (hcur : σ.tCurrent + 1 = σ.nodes.length) {f h : SframeData} {sp : Bags} {hsp : Structured.SframeData}
    (hbag : Structured.ds.atSpawn σ.mSp f.sp h.sp = some (sp, hsp)) :
    ∃ σ', atSpawn σ f h = some (σ', { h with
        sp := hsp
        forkStack := ⟨some σ.tCurrent, some (σ.tCurrent + 1), none, none⟩ :: h.forkStack }) ∧
      NewNode σ σ' ⟨(σ.setOf σ.tCurrent).attPred, none, 0, hsp.sbag⟩ ∧ Advanced σ σ' sp hsp.sbag [] ∧
      Live σ' (.child σ.tCurrent :: items) σ.nodes.length := by
  have hlt : σ.tCurrent < σ.nodes.length := hcur ▸ Nat.lt_succ_self _
  obtain ⟨p, hp⟩ := Option.ne_none_iff_exists'.mp (hl.seg.pred _ hl.seg.le (Nat.le_refl _))
  have hpid : 0 < (σ.node p).id := hok.pred _ p hp
  have hplt : p < σ.nodes.length := State.lt_of_id hpid
  have hoks := hok.bags sp
  generalize hτ : ({ σ with mSp := sp } : State) = τ at hoks
  have hnodes : τ.nodes = σ.nodes := by rw [← hτ]
  have hnew₁ := newNode_new hoks.forest 0
  have hnew₂ := hnew₁.modify fun n => { n with attPred := some p }
  have hnew₃ := hnew₂.setCurrent hsp.sbag
  have hok₂ := hnew₁.setPred hoks.newNode (p := p) (by rw [← hτ]; exact hpid)
  have hset : (τ.newNode 0).1.setOf σ.tCurrent = σ.setOf σ.tCurrent := by
    rw [hnew₁.agree.setOf (hnodes ▸ hlt) (hoks.find_lt (hnodes ▸ hlt)), ← hτ]
    rfl
  have hpid₂ : 0 < (((τ.newNode 0).1.modify τ.nodes.length fun n => { n with attPred := some p }).node p).id := by
    rw [hnew₂.old p (hnodes ▸ hplt), ← hτ]
    exact hpid
  have hlt₂ : τ.nodes.length < ((τ.newNode 0).1.modify τ.nodes.length fun n =>
      { n with attPred := some p }).nodes.length := by
    rw [hnew₂.length]
    exact Nat.lt_succ_self _
  have hok₃ := hok₂.setCurrent hlt₂ hsp.sbag
  have hrun : atSpawn σ f h = some (((τ.newNode 0).1.modify τ.nodes.length fun n =>
      { n with attPred := some p }).setCurrent τ.nodes.length hsp.sbag,
      { h with sp := hsp, forkStack := ⟨some σ.tCurrent, some τ.nodes.length, none, none⟩ :: h.forkStack }) := by
    have hv : (τ.newNode 0).2 = τ.nodes.length := rfl
    simp only [atSpawn, hbag, Option.bind_eq_bind, Option.bind_some, hτ, hset, hp, hv]
    simp [hpid₂, guard]
  subst hτ
  rw [hp]
  refine ⟨_, ?_, hnew₃.bags, ?_, ?_⟩
  · rw [hcur]
    exact hrun
  · exact (hnew₃.advanced hoks hok₃ rfl rfl (Did.of_same rfl rfl)).bags
  · exact hl.child hok hcur hsp.sbag (by rw [hp]; exact hnew₃.bags)

/-- **`at_spawn_continuation`**: so does the continuation, and the helper's entry goes to the parent. -/
theorem atSpawnContinuation_spec {fork : Nat} (hok : NodesOk σ) (hl : Live σ (.child fork :: items) σ.tCurrent)
    (hcur : σ.tCurrent + 1 = σ.nodes.length) {f p : SframeData} (hfut : f.futureFork = none)
    (hfork : f.forkStack = [⟨some fork, some (fork + 1), none, none⟩]) {sp : Bags}
    {psp : Structured.SframeData}
    (hbag : Structured.ds.atSpawnContinuation σ.mSp f.sp p.sp = some (sp, psp)) :
    ∃ σ', atSpawnContinuation σ f p = some (σ', { p with
        sp := psp
        forkStack := ⟨some fork, some (fork + 1), some (σ.tCurrent + 1), some σ.tCurrent⟩ :: p.forkStack }) ∧
      NewNode σ σ' ⟨(σ.setOf fork).attPred, none, 0, psp.sbag⟩ ∧ Advanced σ σ' sp psp.sbag [] ∧
      Live σ' (.join fork σ.tCurrent :: items) σ.nodes.length := by
  have hseg := hl.below.2.1
  have hle : fork + 1 ≤ σ.tCurrent := hl.seg.le
  have hk : fork < σ.nodes.length := by omega
  obtain ⟨q, hq⟩ := Option.ne_none_iff_exists'.mp (hseg.pred _ hseg.le (Nat.le_refl _))
  have hqid : 0 < (σ.node q).id := hok.pred _ q hq
  have hoks := hok.bags sp
  generalize hτ : ({ σ with mSp := sp } : State) = τ at hoks
  have hnodes : τ.nodes = σ.nodes := by rw [← hτ]
  have hnew₁ := newNode_new hoks.forest 0
  have hnew₂ := hnew₁.setCurrent psp.sbag
  have hnew₃ := hnew₂.modify fun n => { n with attPred := some q }
  have hlt₁ : τ.nodes.length < (τ.newNode 0).1.nodes.length := by
    rw [hnew₁.length]
    exact Nat.lt_succ_self _
  have hok₂ := hoks.newNode.setCurrent hlt₁ psp.sbag
  have hok₃ := hnew₂.setPred hok₂ (p := q) (by rw [← hτ]; exact hqid)
  have hset : ((τ.newNode 0).1.setCurrent τ.nodes.length psp.sbag).setOf fork = σ.setOf fork := by
    rw [hnew₂.agree.setOf (hnodes ▸ hk) (hoks.find_lt (hnodes ▸ hk)), ← hτ]
    rfl
  have hroot : ((τ.newNode 0).1.setCurrent τ.nodes.length psp.sbag).find τ.nodes.length = τ.nodes.length := by
    rw [hnew₂.find, NewNode.find_new hoks]
  have hrun : atSpawnContinuation σ f p = some (((τ.newNode 0).1.setCurrent τ.nodes.length psp.sbag).modify
      τ.nodes.length fun n => { n with attPred := some q }, { p with
        sp := psp
        forkStack := ⟨some fork, some (fork + 1), some τ.nodes.length, some σ.tCurrent⟩ :: p.forkStack }) := by
    have hv : (τ.newNode 0).2 = τ.nodes.length := rfl
    simp only [atSpawnContinuation, hfut, hfork, hbag, Option.bind_eq_bind, Option.bind_some, hτ, hv, List.head?_cons]
    simp [hroot, hset, hq, guard]
  subst hτ
  rw [hq]
  refine ⟨_, ?_, hnew₃.bags, ?_, ?_⟩
  · rw [hcur]
    exact hrun
  · exact (hnew₃.advanced hoks hok₃ rfl rfl (Did.of_same rfl rfl)).bags
  · exact hl.joined hok hcur psp.sbag (by rw [hq]; exact hnew₃.bags)

/-! ## Futures

A create attaches the running strand, since the future and the continuation will need an edge from it; a get attaches
it too, since the strand behind the get needs edges from it and from the last strand of the future. A finish finds the
last strand attached: the future began in an attached set, and a segment that begins attached stays so. -/

/-- The running strand has an attached predecessor, and no successor while it is unattached. -/
theorem Live.attachable (hl : Live σ items σ.tCurrent) :
    (∃ p, (σ.setOf σ.tCurrent).attPred = some p) ∧
      (σ.attached σ.tCurrent = false → (σ.setOf σ.tCurrent).attSucc = none) := by
  refine ⟨Option.ne_none_iff_exists'.mp (hl.seg.pred _ hl.seg.le (Nat.le_refl _)), ?_⟩
  intro hatt
  cases ha : σ.attached (start items) with
  | true =>
      rw [(hl.seg.held ha).1] at hatt
      cases hatt
  | false =>
      obtain ⟨hfind, hsucc⟩ := hl.seg.free ha
      unfold State.setOf at hsucc ⊢
      rw [hfind]
      exact hsucc

/-- The bags are nothing to the segments. -/
theorem Live.bags {w : Nat} (hl : Live σ items w) (sp : Bags) : Live { σ with mSp := sp } items w :=
  hl.congr ((SameNodes.mk rfl rfl : SameNodes σ { σ with mSp := sp }).agree (w + 1)) (Nat.lt_succ_self w)

/-- **`at_future_create`**: the fork is attached, the future starts an attached set behind it. The frame remembers
    the fork, and it had none before. -/
theorem atFutureCreate_spec (hok : NodesOk σ) (hroom : σ.nodes.length + 1 < 2 ^ 64)
    (hl : Live σ items σ.tCurrent) (hcur : σ.tCurrent + 1 = σ.nodes.length) {f : SframeData}
    (hfut : f.futureFork = none) {sp : Bags} {fsp : Structured.SframeData}
    (hbag : Structured.ds.atFutureCreate σ.mSp f.sp = some (sp, fsp)) :
    ∃ σ₁ σ' p, atFutureCreate σ f = some (σ', { f with sp := fsp, futureFork := some σ.tCurrent }) ∧
      (σ.setOf σ.tCurrent).attPred = some p ∧ NodesOk σ₁ ∧
      Attachified { σ with mSp := sp } σ₁ σ.tCurrent ∧
      NewNode σ₁ σ' ⟨some σ.nodes.length, some σ.nodes.length, σ₁.mR.data.length, fsp.sbag⟩ ∧
      Advanced σ σ' sp fsp.sbag (attachOps σ σ.tCurrent p ++ newOps σ₁ σ.tCurrent) ∧
      Live σ' (.future σ.tCurrent :: items) σ.nodes.length := by
  have hlt : σ.tCurrent < σ.nodes.length := hcur ▸ Nat.lt_succ_self _
  obtain ⟨⟨p, hp⟩, hfree⟩ := hl.attachable
  obtain ⟨σ₁, hrun₁, hok₁, hatt, hdid₁⟩ := attachify_spec (hok.bags sp) (Nat.lt_of_succ_lt hroom) hlt hp hfree
  have hlen₁ : σ₁.nodes.length = σ.nodes.length := hatt.length
  obtain ⟨σ₂, hrun₂, hok₂, -, hsp₂, -, hnew, hdid₂⟩ := newAttached_spec hok₁ (by rw [hlen₁]; exact hroom)
    (show σ.tCurrent < σ₁.nodes.length by rw [hlen₁]; exact hlt)
  have hnew' := hnew.setCurrent fsp.sbag
  have hlt₂ : σ₁.nodes.length < σ₂.nodes.length := by
    rw [hnew.length]
    exact Nat.lt_succ_self _
  have hcur₁ : σ₁.tCurrent = σ.tCurrent := hatt.tCurrent
  obtain ⟨hstart, hspan, hbelow⟩ := (hl.bags sp).attachify hatt
  have hadv := hnew'.advanced hok₁ (hok₂.setCurrent hlt₂ fsp.sbag) rfl (hsp₂.trans hatt.mSp) hdid₂.setCurrent
  refine ⟨σ₁, σ₂.setCurrent σ₁.nodes.length fsp.sbag, p, ?_, hp, hok₁, hatt, ?_,
    (hadv.attachify hatt hdid₁).bags, ?_⟩
  · simp only [atFutureCreate, hbag, hfut, Option.bind_eq_bind, Option.bind_some]
    simp [guard, hrun₁, hrun₂]
  · rw [hlen₁] at hnew' ⊢
    exact hnew'
  · rw [← hlen₁]
    have hpos : 0 < σ₁.mR.data.length := Nat.lt_of_le_of_lt (Nat.zero_le _) (hok₁.id_lt 0)
    have hfuture := Live.future (σ := σ₁) hok₁ (by rw [hcur₁]; exact hspan) hbelow
      (by rw [hcur₁, hlen₁]; exact hcur) hstart hpos hnew'
    rw [hcur₁] at hfuture
    exact hfuture

/-- **`at_future_get`**: a new attached set behind the running strand and the last strand of the future. -/
theorem atFutureGet_spec (hok : NodesOk σ) (hroom : σ.nodes.length + 1 < 2 ^ 64)
    (hl : Live σ items σ.tCurrent) (hcur : σ.tCurrent + 1 = σ.nodes.length) (f : SframeData) {last : Nat}
    (hlast : last < σ.nodes.length) (hatt : σ.attached last = true) :
    ∃ σ₁ σ' p, atFutureGet σ f ⟨some last⟩ = some (σ', f) ∧
      (σ.setOf σ.tCurrent).attPred = some p ∧ NodesOk σ₁ ∧ Attachified σ σ₁ σ.tCurrent ∧
      NewNode σ₁ σ' ⟨some σ.nodes.length, some σ.nodes.length, σ₁.mR.data.length, f.sp.sbag⟩ ∧
      Advanced σ σ' σ.mSp f.sp.sbag (attachOps σ σ.tCurrent p ++ (newOps σ₁ σ.tCurrent ++
        [.addEdge (σ₁.setOf last).id σ₁.mR.data.length])) ∧
      Live σ' items σ.nodes.length := by
  have hlt : σ.tCurrent < σ.nodes.length := hcur ▸ Nat.lt_succ_self _
  obtain ⟨⟨p, hp⟩, hfree⟩ := hl.attachable
  obtain ⟨σ₁, hrun₁, hok₁, hatt₁, hdid₁⟩ := attachify_spec hok (Nat.lt_of_succ_lt hroom) hlt hp hfree
  have hlen₁ : σ₁.nodes.length = σ.nodes.length := hatt₁.length
  obtain ⟨σ₂, hrun₂, hok₂, hcur₂, hsp₂, hdata₂, hnew, hdid₂⟩ := newAttached_spec hok₁
    (by rw [hlen₁]; exact hroom) (show σ.tCurrent < σ₁.nodes.length by rw [hlen₁]; exact hlt)
  -- the second edge, from the last strand of the future
  have hlast₁ : last < σ₁.nodes.length := by
    rw [hlen₁]
    exact hlast
  have hset : σ₂.setOf last = σ₁.setOf last := hnew.agree.setOf hlast₁ (hok₁.find_lt hlast₁)
  have hatt₂ : σ₂.attached last = true := by
    unfold State.attached
    rw [hset]
    exact hatt₁.attached hatt
  have hid : (σ₂.node σ₁.nodes.length).id = σ₁.mR.data.length := by rw [hnew.new]
  obtain ⟨σ₃, hrun₃, hok₃, hedge⟩ := addEdge_spec hok₂ (by rw [hnew.length, hlen₁]; exact hroom)
    (show (σ₁.setOf last).id < _ by rw [hdata₂]; exact Nat.lt_succ_of_lt (hok₁.id_lt _))
    (show σ₁.mR.data.length < _ by rw [hdata₂]; exact Nat.lt_succ_self _)
  have hnew₃ := hnew.same hedge.same
  have hnew' := hnew₃.setCurrent f.sp.sbag
  have hlt₃ : σ₁.nodes.length < σ₃.nodes.length := by
    rw [hnew₃.length]
    exact Nat.lt_succ_self _
  have hcur₁ : σ₁.tCurrent = σ.tCurrent := hatt₁.tCurrent
  obtain ⟨hstart, hspan, hbelow⟩ := hl.attachify hatt₁
  have hadv := hnew'.advanced hok₁ (hok₃.setCurrent hlt₃ f.sp.sbag) rfl
    ((hedge.mSp.trans hsp₂).trans hatt₁.mSp) (hdid₂.trans hedge.did).setCurrent
  refine ⟨σ₁, σ₃.setCurrent σ₁.nodes.length f.sp.sbag, p, ?_, hp, hok₁, hatt₁, ?_,
    hadv.attachify hatt₁ hdid₁, ?_⟩
  · simp only [atFutureGet, Option.bind_eq_bind, Option.bind_some]
    simp [guard, hrun₁, hrun₂, hatt₂, hset, hid, hrun₃]
  · rw [hlen₁] at hnew' ⊢
    exact hnew'
  · rw [← hlen₁]
    have hpos : 0 < σ₁.mR.data.length := Nat.lt_of_le_of_lt (Nat.zero_le _) (hok₁.id_lt 0)
    exact Live.onward (σ := σ₁) hok₁ (by rw [hcur₁]; exact hspan) hbelow
      (by rw [hcur₁, hlen₁]; exact hcur) hstart hpos hnew'

/-- **`at_future_finish`**: the last strand of a future is attached already, and so is the fork; the continuation
    starts an attached set behind it. -/
theorem atFutureFinish_spec {fork : Nat} (hok : NodesOk σ) (hroom : σ.nodes.length + 1 < 2 ^ 64)
    (hl : Live σ (.future fork :: items) σ.tCurrent) (hcur : σ.tCurrent + 1 = σ.nodes.length)
    {f p : SframeData} (hfut : f.futureFork = some fork) {b : Nat} (hbag : f.sp.sbag = some b) (old : SfutData) :
    ∃ σ', atFutureFinish σ f p old = some (σ', p, ⟨some σ.tCurrent⟩) ∧ σ.attached σ.tCurrent = true ∧
      NewNode σ σ' ⟨some σ.nodes.length, some σ.nodes.length, σ.mR.data.length, p.sp.sbag⟩ ∧
      Advanced σ σ' (σ.mSp.setKind b .P) p.sp.sbag (newOps σ fork) ∧ Live σ' items σ.nodes.length := by
  have hlt : σ.tCurrent < σ.nodes.length := hcur ▸ Nat.lt_succ_self _
  have hatt : σ.attached σ.tCurrent = true := (hl.seg.held hl.starts).1
  obtain ⟨hspan, hstart, hbelow⟩ := Below.creator hl
  have hle : fork + 1 ≤ σ.tCurrent := hl.seg.le
  have hk : fork < σ.nodes.length := by omega
  have hoks := hok.bags (σ.mSp.setKind b .P)
  generalize hτ : ({ σ with mSp := σ.mSp.setKind b .P } : State) = τ at hoks
  have hnodes : τ.nodes = σ.nodes := by rw [← hτ]
  have hR : τ.mR = σ.mR := by rw [← hτ]
  have hset : τ.setOf fork = σ.setOf fork := by
    rw [← hτ]
    rfl
  have hpos : 0 < τ.mR.data.length := Nat.lt_of_le_of_lt (Nat.zero_le _) (hoks.id_lt 0)
  obtain ⟨hok₁, hdata₁, hnew₁, hdid₁⟩ := newNode_addNode hoks
  have hsp₁ : (τ.addNode.1.newNode τ.addNode.2).1.mSp = σ.mSp.setKind b .P := by
    rw [← hτ]
    rfl
  obtain ⟨hok₂, hnew₂⟩ := hnew₁.setSelf hok₁ hpos
  have hset₂ : ((τ.addNode.1.newNode τ.addNode.2).1.setSelf τ.nodes.length).setOf fork = σ.setOf fork := by
    rw [hnew₂.agree.setOf (hnodes ▸ hk) (hoks.find_lt (hnodes ▸ hk)), hset]
  have hsrc : (σ.setOf fork).id < τ.mR.data.length := by
    rw [← hset]
    exact hoks.id_lt _
  obtain ⟨σ₃, hrun₃, hok₃, hedge⟩ := addEdge_spec hok₂ (by rw [hnew₂.length, hnodes]; exact hroom)
    (show (σ.setOf fork).id < _ from hdata₁ ▸ Nat.lt_succ_of_lt hsrc)
    (show τ.addNode.2 < _ from hdata₁ ▸ Nat.lt_succ_self _)
  have hnew₃ := hnew₂.same hedge.same
  have hnew' := hnew₃.setCurrent p.sp.sbag
  have hlt₃ : τ.nodes.length < σ₃.nodes.length := by
    rw [hnew₃.length]
    exact Nat.lt_succ_self _
  have hroot : (τ.addNode.1.newNode τ.addNode.2).1.find τ.nodes.length = τ.nodes.length := by
    rw [hnew₁.find, NewNode.find_new hoks]
  have hdid : Did τ σ₃ (newOps σ fork) := by
    have hdid₂ : Did τ ((τ.addNode.1.newNode τ.addNode.2).1.setSelf τ.nodes.length) [.addNode] :=
      ⟨hdid₁.calls, hdid₁.run⟩
    rw [newOps, ← hR]
    exact hdid₂.trans hedge.did
  have hadv := hnew'.advanced hoks (hok₃.setCurrent hlt₃ p.sp.sbag) rfl (hedge.mSp.trans hsp₁) hdid.setCurrent
  have hrun : atFutureFinish σ f p old =
      some (σ₃.setCurrent τ.nodes.length p.sp.sbag, p, ⟨some σ.tCurrent⟩) := by
    have hv : (τ.addNode.1.newNode τ.addNode.2).2 = τ.nodes.length := rfl
    have hattτ : attachify τ σ.tCurrent = some τ := by
      have hatt' : τ.attached σ.tCurrent = true := by
        rw [← hτ]
        exact hatt
      simp [attachify, hatt']
    simp only [atFutureFinish, hbag, Option.bind_eq_bind, Option.bind_some, hτ]
    rw [hattτ]
    simp only [atFutureContinuation, hfut, Option.bind_eq_bind, Option.bind_some, hv]
    simp [guard, hroot, hset₂, hrun₃]
  subst hτ
  exact ⟨_, hrun, hatt, hnew'.bags, hadv.bags, Live.onward hok hspan hbelow hcur hstart hpos hnew'.bags⟩

end FOrder.Futurerd.Nonblock
