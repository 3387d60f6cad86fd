import FOrder.Futurerd.NonblockEvents

/-!
# `Futurerd.NonblockJoin` — one fork of a block that ends

`perform_join` takes the forks of the block from the last one back. While it does, all nodes after the fork it has
come to form one span, which `Branches` describes: either nothing in it is attached and its join parents are in one
set, or its start is attached. `num_attached` tells the two apart, and tells when a single attached set is left.

`Joining` is the invariant of the loop. Before a turn the next fork and its left branch are the topmost item, and
the right branch is the span that the earlier turns have made, with the fork handled last, `fake`, as its end; the
code calls it the fake right join parent. A turn takes fork, left branch and span together into one span
(`Joining.whole`), which starts where the segment of the fork starts.

`handle_binary_fork_at_sync` has four cases, by which of the two branches are attached, and each has a lemma:

- neither: both go into the set of the fork (`handle_none`);
- one of them: a fork that is unattached goes into the set of that branch (`handle_left`, `handle_right`, with
  `absorb`);
- both: the fork is attached, with an edge to each branch (`handle_both`).

In each case the assertions of the code hold by what `Joining.left`, `Joining.right`, `Joining.unattached_fork` and
`Joining.attached_fork` say of the three sets.
-/

namespace FOrder.Futurerd.Nonblock

variable {σ σ' : State}

/-! ## Merges

`x->merge(y)` puts the set of `y` into the set of `x`, whichever is larger. The set that is taken in loses its data,
so a join must never merge away a set with an id: its row would be lost. `Kept` collects what a join leaves alone in
any case. -/

/-- The set of `y` goes into the set of `x`. -/
theorem State.find_merge (hok : NodesOk σ) {x y : Nat} (hx : x < σ.nodes.length) (hy : y < σ.nodes.length)
    (z : Nat) : (σ.merge x y).find z = if σ.find z = σ.find y then σ.find x else σ.find z := by
  rw [← hok.size] at hx hy
  exact (UF.union_spec hok.forest hx hy).2.2 z

/-- A set is only merged away when its root has no id. -/
theorem NodesOk.merge (hok : NodesOk σ) {x y : Nat} (hx : x < σ.nodes.length) (hy : y < σ.nodes.length)
    (hid : (σ.node (σ.find y)).id = 0 ∨ σ.find x = σ.find y) : NodesOk (σ.merge x y) := by
  obtain ⟨hwf, hlen, -⟩ := UF.union_spec hok.forest (hok.size ▸ hx) (hok.size ▸ hy)
  refine ⟨hwf, hlen.trans hok.size, ?_, hok.id_lt, hok.pred, hok.ids⟩
  intro z hz
  have hz : 0 < (σ.node z).id := hz
  have hroot := hok.root z hz
  rw [State.find_merge hok hx hy]
  split
  · rename_i hzy
    rcases hid with hid | hid
    · rw [← hzy, hroot] at hid
      omega
    · rw [hid, ← hzy, hroot]
  · exact hroot

/-- The data of the set that takes in is what counts. -/
theorem State.setOf_merge (hok : NodesOk σ) {x y : Nat} (hx : x < σ.nodes.length) (hy : y < σ.nodes.length)
    (z : Nat) : (σ.merge x y).setOf z = if σ.find z = σ.find y then σ.setOf x else σ.setOf z := by
  show σ.node ((σ.merge x y).find z) = _
  rw [State.find_merge hok hx hy]
  split <;> rfl

/-- So the strands of the other set are attached when it is. -/
theorem State.attached_merge (hok : NodesOk σ) {x y : Nat} (hx : x < σ.nodes.length) (hy : y < σ.nodes.length)
    (z : Nat) : (σ.merge x y).attached z = if σ.find z = σ.find y then σ.attached x else σ.attached z := by
  unfold State.attached
  rw [State.setOf_merge hok hx hy]
  split <;> rfl

/-- A merge into a set of the span leaves a span. -/
theorem Span.merge (hok : NodesOk σ) {a w x y : Nat} (hs : Span σ a w) (hw : w < σ.nodes.length)
    (hxa : a ≤ x) (hxw : x ≤ w) (hy : y < σ.nodes.length) : Span (σ.merge x y) a w where
  le := hs.le
  within z hza hzw := by
    rw [State.find_merge hok (Nat.lt_of_le_of_lt hxw hw) hy]
    split
    · exact hs.within x hxa hxw
    · exact hs.within z hza hzw
  pred z hza hzw := by
    rw [State.setOf_merge hok (Nat.lt_of_le_of_lt hxw hw) hy]
    split
    · exact hs.pred x hxa hxw
    · exact hs.pred z hza hzw

/-- Nodes outside both sets do not notice. -/
theorem Agree.merge (hok : NodesOk σ) {n x y : Nat} (hx : x < σ.nodes.length) (hy : y < σ.nodes.length)
    (hne : ∀ z, z < n → σ.find z ≠ σ.find y) : Agree n σ (σ.merge x y) where
  find z hz := by rw [State.find_merge hok hx hy, if_neg (hne z hz)]
  node _ _ := rfl

/-- One set, one answer. -/
theorem State.attached_congr {x y : Nat} (h : σ.find x = σ.find y) : σ.attached x = σ.attached y := by
  unfold State.attached State.setOf
  rw [h]

/-- What the steps of a join leave alone, besides the nodes further down. -/
structure Kept (σ σ' : State) (ops : List General.Op) : Prop where
  length : σ'.nodes.length = σ.nodes.length
  tCurrent : σ'.tCurrent = σ.tCurrent
  mSp : σ'.mSp = σ.mSp
  attached : ∀ z, σ.attached z = true → σ'.attached z = true
  sbag : ∀ z, (σ'.node z).sbag = (σ.node z).sbag
  did : Did σ σ' ops

/-- Nothing has happened. -/
theorem Kept.refl (σ : State) : Kept σ σ [] := ⟨rfl, rfl, rfl, fun _ h => h, fun _ => rfl, Did.refl σ⟩

/-- One step after another. -/
theorem Kept.trans {σ'' : State} {ops ops' : List General.Op} (h : Kept σ σ' ops) (h' : Kept σ' σ'' ops') :
    Kept σ σ'' (ops ++ ops') where
  length := h'.length.trans h.length
  tCurrent := h'.tCurrent.trans h.tCurrent
  mSp := h'.mSp.trans h.mSp
  attached z hz := h'.attached z (h.attached z hz)
  sbag z := (h'.sbag z).trans (h.sbag z)
  did := h.did.trans h'.did

/-- A merge of an unattached set, or of a set into itself. -/
theorem Kept.merge (hok : NodesOk σ) {x y : Nat} (hx : x < σ.nodes.length) (hy : y < σ.nodes.length)
    (hid : (σ.node (σ.find y)).id = 0 ∨ σ.find x = σ.find y) : Kept σ (σ.merge x y) [] where
  length := rfl
  tCurrent := rfl
  mSp := rfl
  attached z hz := by
    rw [State.attached_merge hok hx hy]
    split
    · rename_i hzy
      rcases hid with hid | hid
      · rw [State.attached_iff, hzy] at hz
        omega
      · rw [State.attached_congr (hid.trans hzy.symm)]
        exact hz
    · exact hz
  sbag _ := rfl
  did := Did.of_same rfl rfl

/-- `attachify` keeps the rest. -/
theorem Attachified.kept {n : Nat} {ops : List General.Op} (h : Attachified σ σ' n) (hdid : Did σ σ' ops) :
    Kept σ σ' ops :=
  ⟨h.length, h.tCurrent, h.mSp, fun _ hz => h.attached hz, h.sbag, hdid⟩

/-- So does `add_edge`. -/
theorem EdgeAdded.kept {src dst : Nat} (h : EdgeAdded σ σ' src dst) : Kept σ σ' [.addEdge src dst] where
  length := by rw [h.same.nodes]
  tCurrent := h.tCurrent
  mSp := h.mSp
  attached z hz := by
    rw [h.same.attached]
    exact hz
  sbag z := by rw [h.same.node]
  did := h.did

/-! ## The state of a join

The loop of `perform_join` counts attached branches in `num_attached`, and asserts several things that depend on it.
`Branches` ties the number to the sets: with none the whole block is one unattached set, with one there is a single
attached set among the join parents, and with more it only matters that the fork handled last is attached. `Joining`
adds where the fork that is next lies. -/

/-- The branches handled so far, by `num_attached`; `a` is the start of their span, `ps` are their join parents. -/
inductive Branches (σ : State) (a fake : Nat) : Nat → List Nat → Prop where
  | none {ps} (ha : σ.attached a = false) (hfake : σ.find fake = σ.find a)
      (hsucc : (σ.setOf a).attSucc = none) (hps : ∀ p ∈ ps, σ.find p = σ.find a) : Branches σ a fake 0 ps
  | one {ps} (r : Nat) (ha : σ.attached a = true) (hfake : σ.attached fake = true) (hid : 0 < (σ.node r).id)
      (hself : (σ.node r).attPred = some r) (hps : ∀ p ∈ ps, σ.attached p = true → σ.find p = r)
      (hex : ∃ p ∈ ps, σ.attached p = true) : Branches σ a fake 1 ps
  | many {num ps} (hnum : 2 ≤ num) (ha : σ.attached a = true) (hfake : σ.attached fake = true) :
      Branches σ a fake num ps

/-- The invariant of the first loop of `perform_join`; `c` is the running strand, `c + 1` the join node. -/
structure Joining (σ : State) (c : Nat) (items : List Item) (fake num : Nat) (ps : List Nat) : Prop where
  ok : NodesOk σ
  tCurrent : σ.tCurrent = c
  length : σ.nodes.length = c + 2
  joinNode : σ.node (c + 1) = ⟨none, none, 0, none⟩
  joinRoot : σ.find (c + 1) = c + 1
  span : Span σ (start items) c
  le : start items ≤ fake
  fake_le : fake ≤ c
  starts : Starts σ items
  below : Below σ items
  parents : ∀ p ∈ ps, start items ≤ p ∧ p ≤ c
  cur : c ∈ ps
  branches : Branches σ (start items) fake num ps

/-- `num_attached` is positive once the fork handled last is attached. -/
theorem Branches.pos_iff {a fake num : Nat} {ps : List Nat} (h : Branches σ a fake num ps) :
    0 < num ↔ σ.attached fake = true := by
  cases h with
  | none ha hfake hsucc hps =>
      have hatt : σ.attached fake = false := by rw [State.attached_congr hfake, ha]
      simp [hatt]
  | one r ha hfake hid hself hps hex => simp [hfake]
  | many hnum ha hfake =>
      simp only [hfake, iff_true]
      omega

section Fork

variable {c fork ljp fake num : Nat} {items : List Item} {ps : List Nat}

/-- The numbers of the fork that is next. -/
theorem Joining.bounds (hj : Joining σ c (.join fork ljp :: items) fake num ps) :
    start items ≤ fork ∧ fork + 1 ≤ ljp ∧ ljp + 1 ≤ fake ∧ fake ≤ c ∧ c < σ.nodes.length := by
  obtain ⟨hleft, -, -, hseg, -⟩ := hj.below
  have hlen := hj.length
  exact ⟨hseg.le, hleft.le, hj.le, hj.fake_le, by omega⟩

/-- What the fork, its left branch and the rest of the block cover. -/
theorem Joining.whole (hj : Joining σ c (.join fork ljp :: items) fake num ps) : Span σ (start items) c := by
  obtain ⟨hleft, -, -, hseg, -⟩ := hj.below
  exact (hseg.toSpan.append hleft.toSpan).append hj.span

/-- After a fork has been handled the next one is due. -/
theorem Joining.next (hj : Joining σ c (.join fork ljp :: items) fake num ps) {ops : List General.Op}
    (hok : NodesOk σ') (hk : Kept σ σ' ops) (hagree : Agree (start items) σ σ')
    (hspan : Span σ' (start items) c) (hnode : σ'.node (c + 1) = σ.node (c + 1))
    (hroot : σ'.find (c + 1) = c + 1) (hst : Starts σ' items) {num' : Nat}
    (hb : Branches σ' (start items) fork num' (ps ++ [ljp])) : Joining σ' c items fork num' (ps ++ [ljp]) := by
  obtain ⟨h₁, h₂, h₃, h₄, h₅⟩ := hj.bounds
  refine ⟨hok, hk.tCurrent.trans hj.tCurrent, hk.length.trans hj.length, hnode.trans hj.joinNode, hroot, hspan,
    h₁, by omega, hst, hj.below.2.2.2.2.congr hagree, ?_, List.mem_append_left _ hj.cur, hb⟩
  intro p hp
  rcases List.mem_append.mp hp with hp | hp
  · have hin := hj.parents p hp
    have hstart : start (.join fork ljp :: items) = ljp + 1 := rfl
    omega
  · obtain rfl : p = ljp := by simpa using hp
    omega

/-- The roots of the strands around the fork. -/
theorem Joining.roots (hj : Joining σ c (.join fork ljp :: items) fake num ps) :
    (start items ≤ σ.find fork ∧ σ.find fork ≤ fork) ∧
      (∀ z, fork < z → z ≤ ljp → fork < σ.find z ∧ σ.find z ≤ ljp) ∧
      (∀ z, ljp < z → z ≤ c → ljp < σ.find z ∧ σ.find z ≤ c) ∧ ∀ z, z ≤ fork → σ.find z ≤ fork := by
  obtain ⟨hleft, -, -, hseg, hrest⟩ := hj.below
  refine ⟨hseg.within _ hseg.le (Nat.le_refl _), fun z => hleft.within z, fun z => hj.span.within z, ?_⟩
  intro z hz
  rcases Nat.lt_or_ge z (start items) with hlt | hge
  · exact Nat.le_of_lt (Nat.lt_of_lt_of_le (hrest.find_lt z hlt) hseg.le)
  · exact (hseg.within z hge hz).2

/-- When the fork is unattached, its set is the one its segment starts with. -/
theorem Joining.unattached_fork (hj : Joining σ c (.join fork ljp :: items) fake num ps)
    (hfork : σ.attached fork = false) : σ.attached (start items) = false ∧
      σ.find fork = σ.find (start items) ∧ (σ.setOf (start items)).attSucc = none := by
  obtain ⟨-, -, -, hseg, -⟩ := hj.below
  have ha : σ.attached (start items) = false := by
    cases ha : σ.attached (start items) with
    | false => rfl
    | true =>
        rw [(hseg.held ha).1] at hfork
        cases hfork
  exact ⟨ha, hseg.free ha⟩

/-- When the fork is attached, so is the start of its segment, and the set of the fork is its own predecessor. -/
theorem Joining.attached_fork (hj : Joining σ c (.join fork ljp :: items) fake num ps)
    (hfork : σ.attached fork = true) : σ.attached (start items) = true ∧
      (σ.setOf fork).attPred = some (σ.find fork) := by
  obtain ⟨-, -, -, hseg, -⟩ := hj.below
  cases ha : σ.attached (start items) with
  | true => exact ⟨rfl, (hseg.held ha).2⟩
  | false =>
      rw [State.attached_congr (hseg.free ha).1, ha] at hfork
      cases hfork

/-- The left branch as a whole is attached or not. -/
theorem Joining.left (hj : Joining σ c (.join fork ljp :: items) fake num ps) :
    σ.attached (fork + 1) = σ.attached ljp ∧
      (σ.attached ljp = true → (σ.setOf ljp).attPred = some (σ.find ljp)) ∧
      (σ.attached ljp = false → σ.find ljp = σ.find (fork + 1) ∧
        (σ.setOf ljp).attPred = (σ.setOf fork).attPred) := by
  obtain ⟨hleft, hfrom, -, -, -⟩ := hj.below
  cases ha : σ.attached (fork + 1) with
  | true =>
      obtain ⟨hljp, hself⟩ := hleft.held ha
      rw [hljp]
      exact ⟨rfl, fun _ => hself, fun h => by cases h⟩
  | false =>
      obtain ⟨hfind, -⟩ := hleft.free ha
      have hljp : σ.attached ljp = false := by rw [State.attached_congr hfind, ha]
      rw [hljp]
      refine ⟨rfl, (fun h => by cases h), fun _ => ⟨hfind, ?_⟩⟩
      rw [← hfrom ha]
      unfold State.setOf
      rw [hfind]

/-- So is the right one, whose end is the fork handled last. -/
theorem Joining.right (hj : Joining σ c (.join fork ljp :: items) fake num ps) :
    σ.attached (ljp + 1) = σ.attached fake ∧
      (σ.attached fake = false → num = 0 ∧ σ.find fake = σ.find (ljp + 1) ∧
        (σ.setOf fake).attPred = (σ.setOf fork).attPred ∧ ∀ p ∈ ps, σ.find p = σ.find fake) := by
  have hfrom : FromFork σ (ljp + 1) fork := hj.starts
  have hb := hj.branches
  rw [show start (.join fork ljp :: items) = ljp + 1 from rfl] at hb
  cases hb with
  | none ha hfake hsucc hps =>
      have hatt := State.attached_congr hfake
      rw [ha] at hatt
      rw [hatt, ha]
      refine ⟨rfl, fun _ => ⟨rfl, hfake, ?_, ?_⟩⟩
      · rw [← hfrom ha]
        unfold State.setOf
        rw [hfake]
      · intro p hp
        rw [hps p hp, hfake]
  | one r ha hfake hid hself hps hex =>
      rw [ha, hfake]
      exact ⟨rfl, fun h => by cases h⟩
  | many hnum ha hfake =>
      rw [ha, hfake]
      exact ⟨rfl, fun h => by cases h⟩

/-! ## Both branches unattached

The case that costs nothing: fork and branches become one set. The fork itself may be attached, if a future was
created before it; then it takes the branches in. -/

/-- The sets after both branches have gone into the set of the fork. -/
theorem Joining.find_both (hj : Joining σ c (.join fork ljp :: items) fake num ps) (z : Nat) :
    ((σ.merge fork ljp).merge fork fake).find z =
      if σ.find z = σ.find ljp ∨ σ.find z = σ.find fake then σ.find fork else σ.find z := by
  obtain ⟨h₁, h₂, h₃, h₄, h₅⟩ := hj.bounds
  obtain ⟨hrf, hrl, hrr, -⟩ := hj.roots
  have hl := hrl ljp (by omega) (Nat.le_refl _)
  have hr := hrr fake (by omega) h₄
  have hfork : fork < σ.nodes.length := by omega
  have hljp : ljp < σ.nodes.length := by omega
  have hfake : fake < σ.nodes.length := by omega
  have hfind := State.find_merge hj.ok hfork hljp
  have hsame : ∀ x, σ.find x ≠ σ.find ljp → (σ.merge fork ljp).find x = σ.find x := by
    intro x hx
    rw [hfind, if_neg hx]
  have hok₁ : UF.WF (σ.merge fork ljp).parent := (UF.union_spec hj.ok.forest (hj.ok.size ▸ hfork)
    (hj.ok.size ▸ hljp)).1
  have hlen₁ : (σ.merge fork ljp).parent.length = σ.nodes.length :=
    (UF.union_spec hj.ok.forest (hj.ok.size ▸ hfork) (hj.ok.size ▸ hljp)).2.1.trans hj.ok.size
  have hfind₂ : ((σ.merge fork ljp).merge fork fake).find z =
      if (σ.merge fork ljp).find z = (σ.merge fork ljp).find fake then (σ.merge fork ljp).find fork
      else (σ.merge fork ljp).find z :=
    (UF.union_spec hok₁ (hlen₁ ▸ hfork) (hlen₁ ▸ hfake)).2.2 z
  rw [hfind₂, hsame fork (by omega), hsame fake (by omega), hfind]
  by_cases hz : σ.find z = σ.find ljp
  · rw [if_pos hz, if_pos (Or.inl hz)]
    split <;> rfl
  · rw [if_neg hz]
    simp only [hz, false_or]

/-- **Neither branch is attached**: the three sets become one, and `num_attached` stays `0` while the fork is
    unattached. If the fork is attached, it is so in a set of its own, and is the first attached one. -/
theorem handle_none (hj : Joining σ c (.join fork ljp :: items) fake num ps)
    (hl : σ.attached ljp = false) (hr : σ.attached fake = false) :
    handleBinaryForkAtSync σ fork (fork + 1) (ljp + 1) ljp fake = some ((σ.merge fork ljp).merge fork fake) ∧
      Kept σ ((σ.merge fork ljp).merge fork fake) [] ∧
      Joining ((σ.merge fork ljp).merge fork fake) c items fork
        (if ((σ.merge fork ljp).merge fork fake).attached fork then num + 1 else num) (ps ++ [ljp]) := by
  obtain ⟨h₁, h₂, h₃, h₄, h₅⟩ := hj.bounds
  obtain ⟨hrf, hrl, hrr, hlow⟩ := hj.roots
  have hlin := hrl ljp (by omega) (Nat.le_refl _)
  have hrin := hrr fake (by omega) h₄
  obtain ⟨-, -, hleft⟩ := hj.left
  obtain ⟨hlfind, hlpred⟩ := hleft hl
  obtain ⟨hnum, hrfind, hrpred, hps⟩ := hj.right.2 hr
  have hfork : fork < σ.nodes.length := by omega
  have hljp : ljp < σ.nodes.length := by omega
  have hfake : fake < σ.nodes.length := by omega
  have hlid : (σ.node (σ.find ljp)).id = 0 := State.not_attached.mp hl
  have hrid : (σ.node (σ.find fake)).id = 0 := State.not_attached.mp hr
  have hok₁ := hj.ok.merge hfork hljp (Or.inl hlid)
  have hfake₁ : (σ.merge fork ljp).find fake = σ.find fake := by
    rw [State.find_merge hj.ok hfork hljp, if_neg (by omega)]
  have hfork₁ : (σ.merge fork ljp).find fork = σ.find fork := by
    rw [State.find_merge hj.ok hfork hljp, if_neg (by omega)]
  have hok₂ := hok₁.merge (x := fork) (y := fake) hfork hfake (Or.inl (by rw [hfake₁]; exact hrid))
  have hfind₂ := hj.find_both
  have hkept := (Kept.merge hj.ok hfork hljp (Or.inl hlid)).trans
    (Kept.merge hok₁ (x := fork) (y := fake) hfork hfake (Or.inl (by rw [hfake₁]; exact hrid)))
  have hspan := (hj.whole.merge hj.ok h₅ h₁ (by omega) hljp).merge hok₁ h₅ h₁ (by omega) hfake
  have hagree : Agree (fork + 1) σ ((σ.merge fork ljp).merge fork fake) := by
    refine ⟨?_, fun _ _ => rfl⟩
    intro z hz
    have hzlow := hlow z (Nat.le_of_lt_succ hz)
    rw [hfind₂, if_neg (by omega)]
  have hfork₂ : ((σ.merge fork ljp).merge fork fake).attached fork = σ.attached fork :=
    hagree.attached (Nat.lt_succ_self _) (by omega)
  -- the join parents are all in the set of the fork now
  have hps₂ : ∀ p ∈ ps ++ [ljp], ((σ.merge fork ljp).merge fork fake).find p = σ.find fork := by
    intro p hp
    rw [hfind₂, if_pos]
    rcases List.mem_append.mp hp with hp | hp
    · exact Or.inr (hps p hp)
    · obtain rfl : p = ljp := by simpa using hp
      exact Or.inl rfl
  have hroot₂ : ((σ.merge fork ljp).merge fork fake).find (c + 1) = c + 1 := by
    rw [hfind₂, if_neg (by rw [hj.joinRoot]; omega), hj.joinRoot]
  have hforkself : ((σ.merge fork ljp).merge fork fake).find fork = σ.find fork :=
    hagree.find fork (Nat.lt_succ_self _)
  obtain ⟨-, -, hst, hseg, hrest⟩ := hj.below
  have hstart : start items < fork + 1 := Nat.lt_succ_of_le h₁
  have hstartlow := hlow (start items) h₁
  have hst₂ := hst.congr hagree (Nat.lt_succ_self _) hseg.toSpan hrest
  refine ⟨?_, hkept, hj.next hok₂ hkept (hagree.mono (Nat.le_of_lt hstart)) hspan rfl hroot₂ hst₂ ?_⟩
  · have hlset : (σ.setOf fork).attPred = (σ.setOf ljp).attPred := hlpred.symm
    have hrset : (σ.setOf fork).attPred = (σ.setOf fake).attPred := hrpred.symm
    simp [handleBinaryForkAtSync, hl, hr, hlfind, hrfind, ← hlset, ← hrset, guard]
  · rw [hfork₂, hnum]
    have hset : ((σ.merge fork ljp).merge fork fake).setOf (start items) = σ.setOf (start items) :=
      hagree.setOf hstart (by omega)
    have hatt := hagree.attached hstart (show σ.find (start items) < fork + 1 by omega)
    cases hfatt : σ.attached fork with
    | false =>
        obtain ⟨ha, hfind, hsucc⟩ := hj.unattached_fork hfatt
        refine Branches.none ?_ ?_ ?_ ?_
        · rw [hatt, ha]
        · rw [hforkself, hagree.find _ hstart, hfind]
        · rw [hset, hsucc]
        · intro p hp
          rw [hps₂ p hp, hagree.find _ hstart, hfind]
    | true =>
        obtain ⟨ha, hself⟩ := hj.attached_fork hfatt
        refine Branches.one (σ.find fork) ?_ ?_ ?_ hself (fun p hp _ => hps₂ p hp) ⟨ljp, by simp, ?_⟩
        · rw [hatt, ha]
        · rw [hfork₂, hfatt]
        · exact State.attached_iff.mp hfatt
        · rw [State.attached_congr ((hps₂ ljp (by simp)).trans hforkself.symm), hfork₂, hfatt]

/-! ## One branch attached

An unattached fork goes into the set of its attached branch, where `attachify` would make a node of `R` and an edge to
no use. If the fork has been attached before, nothing is merged. In both cases the next fork sees an attached right
branch. -/

/-- An unattached fork goes into the set of its attached child `x`. -/
def absorb (σ : State) (x fork : Nat) : State := if σ.attached fork then σ else σ.merge x fork

/-- How the fork gets attached: the nodes before its segment stay, and the roots outside its own set. -/
structure ForkAttached (σ σ' : State) (items : List Item) (fork c : Nat) : Prop where
  ok : NodesOk σ'
  agree : Agree (start items) σ σ'
  span : Span σ' (start items) c
  startAttached : σ'.attached (start items) = true
  forkAttached : σ'.attached fork = true
  find : ∀ z, σ.find z ≠ σ.find fork → σ'.find z = σ.find z
  node : ∀ z, z ≠ σ.find fork → σ'.node z = σ.node z

/-- After this the fork is attached, whether it was or not. -/
theorem absorb_spec (hj : Joining σ c (.join fork ljp :: items) fake num ps) {x : Nat} (hx : fork < x)
    (hxc : x ≤ c) (hatt : σ.attached x = true) :
    ForkAttached σ (absorb σ x fork) items fork c ∧ Kept σ (absorb σ x fork) [] := by
  obtain ⟨h₁, h₂, h₃, h₄, h₅⟩ := hj.bounds
  obtain ⟨hrf, -, -, hlow⟩ := hj.roots
  have hlow' := hj.below.2.2.2.2.find_lt
  unfold absorb
  cases hfork : σ.attached fork with
  | true =>
      rw [if_pos rfl]
      exact ⟨⟨hj.ok, ⟨fun _ _ => rfl, fun _ _ => rfl⟩, hj.whole, (hj.attached_fork hfork).1, hfork,
        fun _ _ => rfl, fun _ _ => rfl⟩, Kept.refl σ⟩
  | false =>
      rw [if_neg (by simp)]
      obtain ⟨-, hfind, -⟩ := hj.unattached_fork hfork
      have hid : (σ.node (σ.find fork)).id = 0 := State.not_attached.mp hfork
      have hxn : x < σ.nodes.length := by omega
      have hfn : fork < σ.nodes.length := by omega
      have hmerged := State.attached_merge hj.ok hxn hfn
      refine ⟨⟨hj.ok.merge hxn hfn (Or.inl hid), ?_, hj.whole.merge hj.ok h₅ (by omega) hxc hfn, ?_, ?_, ?_,
        fun _ _ => rfl⟩, Kept.merge hj.ok hxn hfn (Or.inl hid)⟩
      · refine Agree.merge hj.ok hxn hfn ?_
        intro z hz
        have hzlow := hlow' z hz
        omega
      · rw [hmerged, if_pos hfind.symm, hatt]
      · rw [hmerged, if_pos rfl, hatt]
      · intro z hz
        rw [State.find_merge hj.ok hxn hfn, if_neg hz]

/-- The fork is attached now, and so is exactly one of its branches. -/
theorem Joining.branches_one (hj : Joining σ c (.join fork ljp :: items) fake num ps)
    (hf : ForkAttached σ σ' items fork c) (hl : σ.attached ljp = true) (hr : σ.attached fake = false) :
    Branches σ' (start items) fork (num + 1) (ps ++ [ljp]) := by
  obtain ⟨h₁, h₂, h₃, h₄, h₅⟩ := hj.bounds
  obtain ⟨hrf, hrl, hrr, -⟩ := hj.roots
  have hlin := hrl ljp (by omega) (Nat.le_refl _)
  have hrin := hrr fake (by omega) h₄
  obtain ⟨hnum, -, -, hps⟩ := hj.right.2 hr
  have hself := hj.left.2.1 hl
  have hnode : σ'.node (σ.find ljp) = σ.node (σ.find ljp) := hf.node _ (by omega)
  have hlfind : σ'.find ljp = σ.find ljp := hf.find ljp (by omega)
  rw [hnum]
  refine Branches.one (σ.find ljp) hf.startAttached hf.forkAttached ?_ ?_ ?_ ⟨ljp, by simp, ?_⟩
  · rw [hnode]
    exact State.attached_iff.mp hl
  · rw [hnode]
    exact hself
  · intro p hp hatt
    rcases List.mem_append.mp hp with hp | hp
    · -- the others are still in the unattached set of the right branch
      have hpfind : σ'.find p = σ.find fake := by rw [hf.find p (by rw [hps p hp]; omega), hps p hp]
      rw [State.attached_iff, hpfind, hf.node _ (by omega), ← State.attached_iff, hr] at hatt
      cases hatt
    · obtain rfl : p = ljp := by simpa using hp
      exact hlfind
  · rw [State.attached_iff, hlfind, hnode]
    exact State.attached_iff.mp hl

/-- The fork is attached now, and so was the last one. -/
theorem Joining.branches_many (hj : Joining σ c (.join fork ljp :: items) fake num ps)
    (hf : ForkAttached σ σ' items fork c) (hr : σ.attached fake = true) :
    Branches σ' (start items) fork (num + 1) (ps ++ [ljp]) :=
  Branches.many (Nat.succ_le_succ (hj.branches.pos_iff.mpr hr)) hf.startAttached hf.forkAttached

/-- The fork has been attached: on to the next one. -/
theorem Joining.next_attached (hj : Joining σ c (.join fork ljp :: items) fake num ps)
    (hf : ForkAttached σ σ' items fork c) {ops : List General.Op} (hk : Kept σ σ' ops)
    (hb : Branches σ' (start items) fork (num + 1) (ps ++ [ljp])) :
    Joining σ' c items fork (if σ'.attached fork then num + 1 else num) (ps ++ [ljp]) := by
  obtain ⟨h₁, h₂, h₃, h₄, h₅⟩ := hj.bounds
  obtain ⟨hrf, -, -, -⟩ := hj.roots
  rw [if_pos hf.forkAttached]
  refine hj.next hf.ok hk hf.agree hf.span (hf.node _ (by omega)) ?_ (Starts.of_attached hf.startAttached) hb
  rw [hf.find _ (by rw [hj.joinRoot]; omega), hj.joinRoot]

/-- The left branch is attached and the right one is not: `num_attached` goes from `0` to `1`, and the only attached
    set of a join parent is that of the left branch. -/
theorem handle_left (hj : Joining σ c (.join fork ljp :: items) fake num ps)
    (hl : σ.attached ljp = true) (hr : σ.attached fake = false) :
    handleBinaryForkAtSync σ fork (fork + 1) (ljp + 1) ljp fake = some (absorb σ (fork + 1) fork) ∧
      Kept σ (absorb σ (fork + 1) fork) [] ∧ Joining (absorb σ (fork + 1) fork) c items fork
        (if (absorb σ (fork + 1) fork).attached fork then num + 1 else num) (ps ++ [ljp]) := by
  obtain ⟨h₁, h₂, h₃, h₄, h₅⟩ := hj.bounds
  have hlfc : σ.attached (fork + 1) = true := by rw [hj.left.1, hl]
  have hrfc : σ.attached (ljp + 1) = false := by rw [hj.right.1, hr]
  obtain ⟨hf, hk⟩ := absorb_spec hj (Nat.lt_succ_self fork) (by omega) hlfc
  refine ⟨?_, hk, hj.next_attached hf hk (hj.branches_one hf hl hr)⟩
  have hmerge : σ.merge (σ.find (fork + 1)) fork = σ.merge (fork + 1) fork := by
    unfold State.merge UF.union
    rw [show UF.rep σ.parent (σ.find (fork + 1)) = UF.rep σ.parent (fork + 1) from hj.ok.find_find _]
  have hpos := State.attached_iff.mp hlfc
  have hzero := State.not_attached.mp hrfc
  have hfork := hf.forkAttached
  unfold absorb at hfork ⊢
  simp [handleBinaryForkAtSync, hl, hr, hpos, hzero, hmerge, hfork, guard]

/-- The right branch is attached and the left one is not: the fork joins the attached ones, and there are at least
    two of them. -/
theorem handle_right (hj : Joining σ c (.join fork ljp :: items) fake num ps)
    (hl : σ.attached ljp = false) (hr : σ.attached fake = true) :
    handleBinaryForkAtSync σ fork (fork + 1) (ljp + 1) ljp fake = some (absorb σ (ljp + 1) fork) ∧
      Kept σ (absorb σ (ljp + 1) fork) [] ∧ Joining (absorb σ (ljp + 1) fork) c items fork
        (if (absorb σ (ljp + 1) fork).attached fork then num + 1 else num) (ps ++ [ljp]) := by
  obtain ⟨h₁, h₂, h₃, h₄, h₅⟩ := hj.bounds
  have hlfc : σ.attached (fork + 1) = false := by rw [hj.left.1, hl]
  have hrfc : σ.attached (ljp + 1) = true := by rw [hj.right.1, hr]
  obtain ⟨hf, hk⟩ := absorb_spec hj (show fork < ljp + 1 by omega) (by omega) hrfc
  refine ⟨?_, hk, hj.next_attached hf hk (hj.branches_many hf hr)⟩
  have hmerge : σ.merge (σ.find (ljp + 1)) fork = σ.merge (ljp + 1) fork := by
    unfold State.merge UF.union
    rw [show UF.rep σ.parent (σ.find (ljp + 1)) = UF.rep σ.parent (ljp + 1) from hj.ok.find_find _]
  have hpos := State.attached_iff.mp hrfc
  have hzero := State.not_attached.mp hlfc
  have hfork := hf.forkAttached
  unfold absorb at hfork ⊢
  simp [handleBinaryForkAtSync, hl, hr, hpos, hzero, hmerge, hfork, guard]

/-! ## Both branches attached

Now the fork has to be attached as well, and both branches hang from it. -/

/-- **Both branches are attached.** `attachify` of the fork returns, as it has an attached predecessor and no
    successor, and two edges are added. These are the edges that `add_edge` does not expect; here they only have to
    return. -/
theorem handle_both (hj : Joining σ c (.join fork ljp :: items) fake num ps)
    (hroom : σ.nodes.length < 2 ^ 64) (hl : σ.attached ljp = true) (hr : σ.attached fake = true) :
    ∃ σ₁ σ₂ σ' p, handleBinaryForkAtSync σ fork (fork + 1) (ljp + 1) ljp fake = some σ' ∧
      (σ.setOf fork).attPred = some p ∧ NodesOk σ₁ ∧ Attachified σ σ₁ fork ∧ Did σ σ₁ (attachOps σ fork p) ∧
      EdgeAdded σ₁ σ₂ (σ₁.setOf fork).id (σ₁.setOf (fork + 1)).id ∧
      EdgeAdded σ₂ σ' (σ₁.setOf fork).id (σ₁.setOf (ljp + 1)).id ∧
      Joining σ' c items fork (if σ'.attached fork then num + 1 else num) (ps ++ [ljp]) := by
  obtain ⟨h₁, h₂, h₃, h₄, h₅⟩ := hj.bounds
  obtain ⟨hrf, -, -, -⟩ := hj.roots
  have hlow' := hj.below.2.2.2.2.find_lt
  have hlfc : σ.attached (fork + 1) = true := by rw [hj.left.1, hl]
  have hrfc : σ.attached (ljp + 1) = true := by rw [hj.right.1, hr]
  obtain ⟨-, -, -, hseg, -⟩ := hj.below
  obtain ⟨p, hp⟩ := Option.ne_none_iff_exists'.mp (hseg.pred _ hseg.le (Nat.le_refl _))
  obtain ⟨σ₁, hrun₁, hok₁, hatt, hdid⟩ := attachify_spec hj.ok hroom (show fork < σ.nodes.length by omega) hp (by
    intro hfork
    obtain ⟨-, hfind, hsucc⟩ := hj.unattached_fork hfork
    unfold State.setOf at hsucc ⊢
    rw [hfind]
    exact hsucc)
  obtain ⟨σ₂, hrun₂, hok₂, hedge₂⟩ := addEdge_spec hok₁ (by rw [hatt.length]; exact hroom)
    (show (σ₁.setOf fork).id < _ from hok₁.id_lt _) (show (σ₁.setOf (fork + 1)).id < _ from hok₁.id_lt _)
  obtain ⟨σ₃, hrun₃, hok₃, hedge₃⟩ := addEdge_spec hok₂ (by rw [hedge₂.same.nodes, hatt.length]; exact hroom)
    (show (σ₁.setOf fork).id < _ by rw [hedge₂.data]; exact hok₁.id_lt _)
    (show (σ₁.setOf (ljp + 1)).id < _ by rw [hedge₂.data]; exact hok₁.id_lt _)
  have hk := ((hatt.kept hdid).trans hedge₂.kept).trans hedge₃.kept
  have hfind : ∀ z, σ₃.find z = σ.find z := by
    intro z
    rw [hedge₃.same.find, hedge₂.same.find, hatt.find]
  have hset : ∀ z, σ₃.setOf z = σ₁.setOf z := by
    intro z
    rw [hedge₃.same.setOf, hedge₂.same.setOf]
  have hnode : ∀ z, z ≠ σ.find fork → σ₃.node z = σ.node z := by
    intro z hz
    rw [hedge₃.same.node, hedge₂.same.node, hatt.node z hz]
  have hfork₃ : σ₃.attached fork = true := by
    rw [hedge₃.same.attached, hedge₂.same.attached]
    exact hatt.attached_self
  have hf : ForkAttached σ σ₃ items fork c := by
    refine ⟨hok₃, ⟨fun z _ => hfind z, fun z hz => hnode z (by omega)⟩, ⟨hj.whole.le, ?_, ?_⟩, ?_, hfork₃,
      fun z _ => hfind z, hnode⟩
    · intro z hza hzw
      rw [hfind]
      exact hj.whole.within z hza hzw
    · intro z hza hzw
      rw [hset, hatt.setOf_attPred]
      exact hj.whole.pred z hza hzw
    · cases hforkatt : σ.attached fork with
      | true => exact hk.attached _ (hj.attached_fork hforkatt).1
      | false =>
          rw [← hfork₃]
          exact State.attached_congr (by rw [hfind, hfind, (hj.unattached_fork hforkatt).2.1])
  refine ⟨σ₁, σ₂, σ₃, p, ?_, hp, hok₁, hatt, hdid, hedge₂, hedge₃,
    hj.next_attached hf hk (hj.branches_many hf hr)⟩
  have hlfc₁ := hatt.attached hlfc
  have hrfc₁ := hatt.attached hrfc
  simp [handleBinaryForkAtSync, hl, hr, hrun₁, hatt.attached_self, hlfc₁, hrfc₁, hrun₂, hedge₂.same.setOf, hrun₃,
    guard]

end Fork

end FOrder.Futurerd.Nonblock
