import FOrder.Futurerd.NonblockSound

/-!
# `Futurerd.NonblockSoundSync` — a join puts no strand before something parallel to it

`Merging` is what holds between two forks of the block that is being joined. The branches that have been merged, the
forks that went into a branch, and the join parents stand for strands that come before the join node, which is not
in the dag yet: `join` says so. Only one set may take in the join node without an edge, and nothing has an entry
after that one.

## Why a join is delicate

`handle_binary_fork_at_sync` merges sets of strands that are parallel to each other. This is harmless for two
reasons.

- A set that takes in others answers for more strands than before, so every entry of its row must be true of the new
  ones too. Where both branches go into the set of the fork, that set has no row, or none with an entry
  (`Merging.neither`). Where an unattached fork goes into the set of an attached branch, the fork comes before the
  branch, and so before everything that the branch comes before (`Merging.takeIn`).
- What the merged sets stand for is compared with later strands only, and these come after the join node, which
  comes after all of them (`joins`).

## The join node

With no attached set it goes on in the set of the block (`Merging.end_none`). With one, it goes into that set, and
nothing has an entry after it: `last` keeps this through the loop, since with `num_attached = 1` the only attached
set of a join parent is that of a child that has come back, of the running strand, or of a fork that both branches
went into, and no attached strand comes after any of these (`Merging.end_one`). With several it has a set of its own
and an edge from each (`Merging.end_many`). In each case `Told` holds again, for the dag with the join node.

## Shape

`Absorbed` describes a merge by the strands that move and the root that they move to; its lemmas say what this does
to answers, to `Sound` and to `Beyond`. `Merging.handled` is one turn of the first loop, `JoinRun.merging` the loop,
`Finished.told` the second and the third loop, and `Synced.told` the whole sync.
-/

namespace FOrder.Futurerd.Nonblock

open Serial (EdgeKind isDep isDep_of_isSp)

variable {σ σ' σ₁ : State} {d d' : Dag EdgeKind} {items : List Item} {done : Nat → Prop}

/-! ## Sets that go into another one

A merge moves strands and writes to no node. So all that a merge can spoil is that a row, or an answer, is now about
more strands than before: those in `M`, which have come into the set of the root `r`. `Absorbed.sound` says what has
to be true of them, namely what the row of `r` says. -/

/-- The strands in `M` come into the set of `r`. -/
structure Absorbed (σ σ' : State) (M : Nat → Prop) (r : Nat) : Prop where
  node : ∀ z, σ'.node z = σ.node z
  mR : σ'.mR = σ.mR
  root : σ.find r = r
  moved : ∀ z, M z → σ'.find z = r
  stay : ∀ z, ¬M z → σ'.find z = σ.find z

namespace Absorbed

variable {M : Nat → Prop} {r : Nat}

/-- A strand that moves has the data of the new set. -/
theorem setOf_moved (h : Absorbed σ σ' M r) {z : Nat} (hz : M z) : σ'.setOf z = σ.setOf r := by
  unfold State.setOf
  rw [h.moved z hz, h.node, h.root]

/-- One that stays has the data it had. -/
theorem setOf_stay (h : Absorbed σ σ' M r) {z : Nat} (hz : ¬M z) : σ'.setOf z = σ.setOf z := by
  unfold State.setOf
  rw [h.stay z hz, h.node]

/-- It is attached when the new set is. -/
theorem attached_moved (h : Absorbed σ σ' M r) {z : Nat} (hz : M z) : σ'.attached z = σ.attached r := by
  unfold State.attached
  rw [h.setOf_moved hz]

/-- Or as before. -/
theorem attached_stay (h : Absorbed σ σ' M r) {z : Nat} (hz : ¬M z) : σ'.attached z = σ.attached z := by
  unfold State.attached
  rw [h.setOf_stay hz]

/-- The set that answers for the new set answers for it. -/
theorem answering_moved (h : Absorbed σ σ' M r) {z : Nat} (hz : M z) : answering σ' z = answering σ r := by
  unfold answering
  rw [h.attached_moved hz, h.setOf_moved hz, h.moved z hz, h.root]

/-- Or the one that did before. -/
theorem answering_stay (h : Absorbed σ σ' M r) {z : Nat} (hz : ¬M z) : answering σ' z = answering σ z := by
  unfold answering
  rw [h.attached_stay hz, h.setOf_stay hz, h.stay z hz]

/-- Only the set of `r` stands for more, when `r` answers for itself if anything does. -/
theorem stands (h : Absorbed σ σ' M r) (hr : ∀ x, answering σ r = some x → x = r) {u x : Nat}
    (hu : Stands σ' u x) : Stands σ u x ∨ (M u ∧ x = r) := by
  by_cases hM : M u
  · right
    refine ⟨hM, ?_⟩
    rcases hu with hu | hu
    · exact hu.symm.trans (h.moved u hM)
    · rw [h.answering_moved hM] at hu
      exact hr x hu
  · left
    rcases hu with hu | hu
    · rw [h.stay u hM] at hu
      exact Or.inl hu
    · rw [h.answering_stay hM] at hu
      exact Or.inr hu

/-- The same, for answers alone. -/
theorem answers (h : Absorbed σ σ' M r) (hr : ∀ x, answering σ r = some x → x = r) {u x : Nat}
    (hu : answering σ' u = some x) : answering σ u = some x ∨ (M u ∧ x = r) := by
  by_cases hM : M u
  · rw [h.answering_moved hM] at hu
    exact Or.inr ⟨hM, hr x hu⟩
  · rw [h.answering_stay hM] at hu
    exact Or.inl hu

/-- **Merging is sound** when the entries of the set that takes in are true of the new strands. Rows and ids stay as
    they are; only the strands behind the root `r` are more. -/
theorem sound (h : Absorbed σ σ' M r) (hs : Sound d σ.mR σ) (hr : ∀ x, answering σ r = some x → x = r)
    (hnew : ∀ u, M u → ∀ y, 0 < (σ.node r).id → 0 < (σ.node y).id → r ≠ y →
      σ.mR.Has (σ.node r).id (σ.node y).id → d.Reach isDep u y) : Sound d σ'.mR σ' := by
  rw [h.mR]
  refine hs.sets (fun x => by rw [h.node]) ?_ ?_
  · intro x y _ hy
    rw [h.node] at hy
    exact Or.inl hy
  · intro u x hu
    have hid : 0 < (σ.node x).id := by
      by_cases hM : M u
      · rw [h.answering_moved hM] at hu
        exact hs.answering_id hu
      · rw [h.answering_stay hM] at hu
        exact hs.answering_id hu
    rcases h.answers hr hu with hold | ⟨hM, rfl⟩
    · exact Or.inl hold
    · exact Or.inr fun y hy hne hhas => hnew u hM y hid hy hne hhas

/-- Merges among the nodes from `n` on leave those below alone. -/
theorem beyond (h : Absorbed σ σ' M r) (hr : ∀ x, answering σ r = some x → x = r) {n : Nat} (hn : n ≤ r)
    (hM : ∀ z, z < n → ¬M z) : Beyond n σ σ' where
  find z hz := h.stay z (hM z hz)
  node z _ := h.node z
  moved u := by
    by_cases hu : M u
    · rw [h.moved u hu]
      exact Or.inr hn
    · exact Or.inl (h.stay u hu)
  answers u x hu := by
    rcases h.answers hr hu with hold | ⟨-, rfl⟩
    · exact Or.inl hold
    · exact Or.inr hn

/-- Finished futures that are not merged stay as they are. -/
theorem done_kept (h : Absorbed σ σ' M r) (hr : ∀ x, answering σ r = some x → x = r) {x : Nat} (hx : ¬M x)
    (hxr : σ.find x ≠ r) (hatt : σ.attached x = true)
    (hbefore : ∀ u, answering σ u = some (σ.find x) → d.Reach isDep u x) :
    σ'.attached x = true ∧ ∀ u, answering σ' u = some (σ'.find x) → d.Reach isDep u x := by
  refine ⟨(h.attached_stay hx).trans hatt, ?_⟩
  intro u hu
  rw [h.stay x hx] at hu
  rcases h.answers hr hu with hold | ⟨-, heq⟩
  · exact hbefore u hold
  · exact absurd heq hxr

end Absorbed

/-- A root answers for itself, or for nothing while it has no successor. -/
theorem answering_root {r : Nat} (hroot : σ.find r = r) (hfree : σ.attached r = false → (σ.setOf r).attSucc = none)
    (x : Nat) (hx : answering σ r = some x) : x = r := by
  cases hatt : σ.attached r with
  | true =>
      rw [answering_of_attached hatt, hroot] at hx
      exact (Option.some.inj hx).symm
  | false =>
      rw [answering_of_not hatt, hfree hatt] at hx
      cases hx

/-! ## Between two forks

The invariant of the first loop, and the three cases of it that add no edge. The hard part is the one between the
branches: two strands of different branches are parallel, and may well be in one set afterwards. Nothing is said of
their order: what the set of a join parent stands for is compared with the join node only (`joins`), and no query is
asked before the join node runs. -/

/-- The block from `start items` to the running strand `c` while it is joined; `ps` are the join parents so far.
    `top` is what is kept of the segment that the forks lie in, `lower` is what lies below the block, and `done` are
    the last strands of finished futures, which no merge touches. -/
structure Merging (d : Dag EdgeKind) (done join : Nat → Prop) (σ : State) (c : Nat) (items : List Item) (num : Nat)
    (ps : List Nat) : Prop where
  sound : Sound d σ.mR σ
  top : Rooted d σ (start items) c
  lower : ∀ s ∈ lower items, Ahead d done σ s.1 s.2
  creators : ∀ fork, Item.future fork ∈ items → σ.attached fork = true
  apart : ∀ x, done x → σ.find x ≠ σ.find (start items) ∧ ∀ p ∈ ps, σ.find x ≠ σ.find p
  joins : ∀ p ∈ ps, ∀ u, Stands σ u (σ.find p) → join u
  last : num = 1 → ∀ p ∈ ps, σ.attached p = true → ∀ y, 0 < (σ.node y).id → σ.find p ≠ y →
    ¬σ.mR.Has (σ.node (σ.find p)).id (σ.node y).id
  done : ∀ x, done x → σ.attached x = true ∧ ∀ u, answering σ u = some (σ.find x) → d.Reach isDep u x

section Fork

variable {c fork ljp fake num : Nat} {ps : List Nat} {join : Nat → Prop}

/-- **Both branches unattached**: they go into the set of the fork. If the fork is unattached too, the set has no
    row. If it is attached, its row has no entry: an entry would be about an attached strand after the fork, and all
    strands after the fork are in the two branches. -/
theorem Merging.neither (hm : Merging d done join σ c (.join fork ljp :: items) num ps)
    (hj : Joining σ c (.join fork ljp :: items) fake num ps) (hwf : d.WF)
    (hfork : ∀ u, d.Reach isDep u fork → join u) (hljp : ∀ u, d.Reach isDep u ljp → join u)
    (hl : σ.attached ljp = false) (hr : σ.attached fake = false) :
    Merging d done join ((σ.merge fork ljp).merge fork fake) c items
      (if ((σ.merge fork ljp).merge fork fake).attached fork then num + 1 else num) (ps ++ [ljp]) := by
  obtain ⟨h₁, h₂, h₃, h₄, h₅⟩ := hj.bounds
  obtain ⟨hrf, hrl, hrr, hlow⟩ := hj.roots
  have hlin := hrl ljp (by omega) (Nat.le_refl _)
  have hrin := hrr fake (by omega) h₄
  obtain ⟨hnum, hrfind, -, hps⟩ := hj.right.2 hr
  obtain ⟨hlatt, -, hlfree⟩ := hj.left
  obtain ⟨hlfind, -⟩ := hlfree hl
  have hrstart : σ.attached (ljp + 1) = false := by rw [hj.right.1, hr]
  rw [hl] at hlatt
  have hleft := hm.lower (fork + 1, ljp) List.mem_cons_self
  have hseg := hm.lower (start items, fork) (List.mem_cons_of_mem _ List.mem_cons_self)
  have hfind := hj.find_both
  have habs : Absorbed σ ((σ.merge fork ljp).merge fork fake)
      (fun z => σ.find z = σ.find ljp ∨ σ.find z = σ.find fake) (σ.find fork) := by
    refine ⟨fun _ => rfl, rfl, hj.ok.find_find _, ?_, ?_⟩
    · intro z hz
      rw [hfind, if_pos hz]
    · intro z hz
      rw [hfind, if_neg hz]
  generalize (σ.merge fork ljp).merge fork fake = σ' at habs ⊢
  -- the set of the fork has no successor yet, and nothing that lies below is merged
  have hroot : ∀ x, answering σ (σ.find fork) = some x → x = σ.find fork := by
    refine answering_root (hj.ok.find_find _) ?_
    intro hfatt
    rw [State.attached_congr (hj.ok.find_find fork)] at hfatt
    obtain ⟨-, hffind, hsucc⟩ := hj.unattached_fork hfatt
    unfold State.setOf at hsucc ⊢
    rw [hj.ok.find_find, hffind]
    exact hsucc
  have hstay : ∀ z, z ≤ fork → ¬(σ.find z = σ.find ljp ∨ σ.find z = σ.find fake) := by
    intro z hz hmem
    have hzlow := hlow z hz
    omega
  have hforkstay := hstay fork (Nat.le_refl _)
  have hstartstay := hstay (start items) h₁
  -- what stands for the fork now comes before the join node
  have hjoin : ∀ u, Stands σ' u (σ.find fork) → join u := by
    intro u hu
    rcases habs.stands hroot hu with hold | ⟨hleft' | hright', -⟩
    · exact hfork u (hseg.before u hold)
    · exact hljp u (hleft.reach hleft')
    · exact hm.joins c hj.cur u (Or.inl (by rw [hright', hps c hj.cur]))
  have hparents : ∀ p ∈ ps ++ [ljp], σ'.find p = σ.find fork := by
    intro p hp
    refine habs.moved p ?_
    rcases List.mem_append.mp hp with hp | hp
    · exact Or.inr (hps p hp)
    · obtain rfl : p = ljp := List.mem_singleton.mp hp
      exact Or.inl rfl
  have hapart : ∀ x, done x → ¬(σ.find x = σ.find ljp ∨ σ.find x = σ.find fake) := by
    intro x hx
    have h₆ := (hleft.apart x hx).2
    have h₇ := (hm.apart x hx).1
    rw [hrfind]
    exact fun hmem => hmem.elim h₆ h₇
  -- nothing after the fork is attached, so nothing has an entry after it
  have hlast : σ.attached fork = true → ∀ y, 0 < (σ.node y).id → σ.find fork ≠ y →
      ¬σ.mR.Has (σ.node (σ.find fork)).id (σ.node y).id := by
    intro hfatt y hy hne hhas
    have hreach := hm.sound.entries _ y (State.attached_iff.mp hfatt) hy hne hhas fork (answering_of_attached hfatt)
    have hle := hreach.le hwf
    have hyatt := hj.ok.attached_of_id hy
    have hyc := hj.le_of_attached hyatt
    rcases Nat.lt_trichotomy fork y with hlt | rfl | hgt
    · rcases Nat.lt_or_ge ljp y with hly | hyl
      · have hwhole := hm.top.whole hrstart y hly hyc
        rw [State.attached_congr hwhole] at hyatt
        exact absurd (hyatt.symm.trans hrstart) (by decide)
      · have hwhole := hleft.whole hlatt y hlt hyl
        rw [State.attached_congr hwhole] at hyatt
        exact absurd (hyatt.symm.trans hlatt) (by decide)
    · exact hne (hj.ok.root _ hy)
    · omega
  have hforkatt : σ'.attached fork = σ.attached fork := habs.attached_stay hforkstay
  have hbeyond : Beyond (start items) σ σ' := by
    refine habs.beyond hroot hrf.1 ?_
    intro z hz
    exact hstay z (by omega)
  have hrest := hj.below.2.2.2.2
  have hforkseg := hj.below.2.2.2.1
  refine ⟨?_, ⟨?_, ?_, ?_⟩, ?_, ?_, ?_, ?_, ?_, ?_⟩
  · refine habs.sound hm.sound hroot ?_
    intro u _ y hid hy hne hhas
    have hfatt : σ.attached fork = true := State.attached_iff.mpr hid
    exact absurd hhas (hlast hfatt y hy hne)
  · rw [habs.stay _ hstartstay]
    exact hseg.start
  · intro hfree p hp u hu
    rw [habs.attached_stay hstartstay] at hfree
    rw [habs.setOf_stay hstartstay] at hp
    rcases habs.answers hroot hu with hold | ⟨-, rfl⟩
    · exact hseg.pred hfree p hp u hold
    · -- the predecessor is attached, the fork is not
      have hpid := hj.ok.pred _ _ hp
      have hfatt := (State.attached_congr (hforkseg.free hfree).1).trans hfree
      rw [State.not_attached] at hfatt
      omega
  · intro hfree z hza hzc
    rw [habs.attached_stay hstartstay] at hfree
    rw [habs.stay _ hstartstay, ← (hforkseg.free hfree).1]
    rcases Nat.lt_or_ge fork z with hlt | hge
    · refine habs.moved z ?_
      rcases Nat.lt_or_ge ljp z with hlt' | hge'
      · exact Or.inr ((hm.top.whole hrstart z hlt' hzc).trans hrfind.symm)
      · exact Or.inl ((hleft.whole hlatt z hlt hge').trans hlfind.symm)
    · rw [habs.stay z (hstay z hge), hseg.whole hfree z hza hge, (hforkseg.free hfree).1]
  · intro s hs
    obtain ⟨hspan, hlt⟩ := hrest.lower_span s hs
    exact (hm.lower s (List.mem_cons_of_mem _ (List.mem_cons_of_mem _ hs))).congr hbeyond hj.ok hwf hrest.find_lt
      hspan.le hlt (fun _ _ h => h) (fun x hx => Or.inl hx)
  · intro f hmem
    have hatt := hm.creators f (List.mem_cons_of_mem _ hmem)
    have hlt := hrest.creator_lt hmem
    rw [habs.attached_stay (hstay f (by omega))]
    exact hatt
  · intro x hx
    obtain ⟨hxstart, hxfork⟩ := hseg.apart x hx
    rw [habs.stay x (hapart x hx), habs.stay _ hstartstay]
    refine ⟨hxstart, ?_⟩
    intro p hp
    rw [hparents p hp]
    exact hxfork
  · intro p hp u hu
    rw [hparents p hp] at hu
    exact hjoin u hu
  · intro hone p hp _ y hy hne
    have hfatt : σ.attached fork = true := by
      cases hfatt : σ.attached fork with
      | true => rfl
      | false =>
          rw [hforkatt, hfatt, hnum] at hone
          cases hone
    rw [hparents p hp] at hne ⊢
    rw [habs.node, habs.node, habs.mR]
    rw [habs.node] at hy
    exact hlast hfatt y hy hne
  · intro x hx
    obtain ⟨hxatt, hbefore⟩ := hm.done x hx
    exact habs.done_kept hroot (hapart x hx) (hseg.apart x hx).2 hxatt hbefore

/-- The fork's segment and its left branch. -/
theorem Merging.fork_ahead (hm : Merging d done join σ c (.join fork ljp :: items) num ps) :
    Ahead d done σ (fork + 1) ljp ∧ Ahead d done σ (start items) fork :=
  ⟨hm.lower (fork + 1, ljp) List.mem_cons_self,
    hm.lower (start items, fork) (List.mem_cons_of_mem _ List.mem_cons_self)⟩

/-- What lies below the block stays ahead. -/
theorem Merging.lower_congr (hm : Merging d done join σ c (.join fork ljp :: items) num ps)
    (hj : Joining σ c (.join fork ljp :: items) fake num ps) (hwf : d.WF) (hb : Beyond (start items) σ σ') :
    ∀ s ∈ Nonblock.lower items, Ahead d done σ' s.1 s.2 := by
  have hrest := hj.below.2.2.2.2
  intro s hs
  obtain ⟨hspan, hlt⟩ := hrest.lower_span s hs
  exact (hm.lower s (List.mem_cons_of_mem _ (List.mem_cons_of_mem _ hs))).congr hb hj.ok hwf hrest.find_lt
    hspan.le hlt (fun _ _ h => h) (fun x hx => Or.inl hx)

/-- **One branch attached**: a fork that is not goes into the set of that branch, which starts at `x`. The strands
    of the fork's set come before `x`, and `x` comes before the root of its set, from which the entries lead on. -/
theorem Merging.takeIn {num' : Nat} (hm : Merging d done join σ c (.join fork ljp :: items) num ps)
    (hj : Joining σ c (.join fork ljp :: items) fake num ps) (hwf : d.WF)
    (hfork : ∀ u, d.Reach isDep u fork → join u) (hljp : ∀ u, d.Reach isDep u ljp → join u)
    {x : Nat} (hx : fork < x) (hxc : x ≤ c) (hatt : σ.attached x = true) (hfx : d.Reach isDep fork x)
    (hroot : d.Reach isDep x (σ.find x)) (hxapart : ∀ z, done z → σ.find z ≠ σ.find x)
    (hlast : num' = 1 → ∀ p ∈ ps ++ [ljp], (absorb σ x fork).attached p = true → ∀ y, 0 < (σ.node y).id →
      σ.find p ≠ y → ¬σ.mR.Has (σ.node (σ.find p)).id (σ.node y).id) :
    Merging d done join (absorb σ x fork) c items num' (ps ++ [ljp]) := by
  obtain ⟨h₁, h₂, h₃, h₄, h₅⟩ := hj.bounds
  obtain ⟨hrf, hrl, hrr, hlow⟩ := hj.roots
  obtain ⟨hleft, hseg⟩ := hm.fork_ahead
  have hrest := hj.below.2.2.2.2
  have hpsfind : ∀ p ∈ ps ++ [ljp], fork < σ.find p := by
    intro p hp
    rcases List.mem_append.mp hp with hp | hp
    · obtain ⟨hpa, hpc⟩ := hj.parents p hp
      have hpa : ljp + 1 ≤ p := hpa
      have hin := hrr p hpa hpc
      omega
    · obtain rfl : p = ljp := List.mem_singleton.mp hp
      exact (hrl p (by omega) (Nat.le_refl _)).1
  have hpsapart : ∀ z, done z → ∀ p ∈ ps ++ [ljp], σ.find z ≠ σ.find p := by
    intro z hz p hp
    rcases List.mem_append.mp hp with hp | hp
    · exact (hm.apart z hz).2 p hp
    · obtain rfl : p = ljp := List.mem_singleton.mp hp
      exact (hleft.apart z hz).2
  have hpsjoins : ∀ p ∈ ps ++ [ljp], ∀ u, Stands σ u (σ.find p) → join u := by
    intro p hp u hu
    rcases List.mem_append.mp hp with hp | hp
    · exact hm.joins p hp u hu
    · obtain rfl : p = ljp := List.mem_singleton.mp hp
      exact hljp u (hleft.before u hu)
  unfold absorb at hlast ⊢
  cases hfatt : σ.attached fork with
  | true =>
      rw [hfatt, if_pos rfl] at hlast
      rw [if_pos rfl]
      refine ⟨hm.sound, Rooted.of_attached (hj.attached_fork hfatt).1 hseg.start, ?_, ?_, ?_, hpsjoins, hlast, hm.done⟩
      · exact fun s hs => hm.lower s (List.mem_cons_of_mem _ (List.mem_cons_of_mem _ hs))
      · exact fun f hmem => hm.creators f (List.mem_cons_of_mem _ hmem)
      · exact fun z hz => ⟨(hseg.apart z hz).1, hpsapart z hz⟩
  | false =>
      rw [hfatt, if_neg (by decide)] at hlast
      rw [if_neg (by decide)]
      obtain ⟨-, hffind, -⟩ := hj.unattached_fork hfatt
      have hxfind : fork < σ.find x := by
        rcases Nat.lt_or_ge ljp x with hlt | hge
        · have hin := hrr x hlt hxc
          omega
        · exact (hrl x hx hge).1
      have habs : Absorbed σ (σ.merge x fork) (fun z => σ.find z = σ.find fork) (σ.find x) := by
        have hmerge := State.find_merge hj.ok (show x < σ.nodes.length by omega) (show fork < σ.nodes.length by omega)
        refine ⟨fun _ => rfl, rfl, hj.ok.find_find _, ?_, ?_⟩
        · intro z hz
          rw [hmerge, if_pos hz]
        · intro z hz
          rw [hmerge, if_neg hz]
      generalize σ.merge x fork = σ' at habs hlast ⊢
      have hxatt : σ.attached (σ.find x) = true := (State.attached_congr (hj.ok.find_find x)).trans hatt
      have hself : ∀ y, answering σ (σ.find x) = some y → y = σ.find x :=
        answering_root (hj.ok.find_find _) (fun h => absurd (hxatt.symm.trans h) (by decide))
      -- the strands of the fork come before the branch
      have hnew : ∀ u, σ.find u = σ.find fork → d.Reach isDep u (σ.find x) := fun u hu =>
        ((hseg.reach hu).trans hfx).trans hroot
      have hps : ∀ p ∈ ps ++ [ljp], σ'.find p = σ.find p := by
        intro p hp
        have hpfind := hpsfind p hp
        exact habs.stay p (show σ.find p ≠ σ.find fork by omega)
      have hapart : ∀ z, done z → σ.find z ≠ σ.find fork := fun z hz => (hseg.apart z hz).2
      have hbeyond : Beyond (start items) σ σ' := by
        refine habs.beyond hself (by omega) ?_
        intro z hz hmem
        have hzlow := hrest.find_lt z hz
        omega
      have hstart : σ'.attached (start items) = true := (habs.attached_moved hffind.symm).trans hxatt
      refine ⟨?_, Rooted.of_attached hstart ?_, hm.lower_congr hj hwf hbeyond, ?_, ?_, ?_, ?_, ?_⟩
      · refine habs.sound hm.sound hself ?_
        intro u hu y hid hy hne hhas
        exact (hnew u hu).trans (hm.sound.entries _ y hid hy hne hhas _ (answering_self hj.ok hid))
      · rw [habs.moved _ hffind.symm]
        exact hnew _ hffind.symm
      · intro f hmem
        have hlt := hrest.creator_lt hmem
        have hflow := hrest.find_lt f hlt
        rw [habs.attached_stay (show σ.find f ≠ σ.find fork by omega)]
        exact hm.creators f (List.mem_cons_of_mem _ hmem)
      · intro z hz
        rw [habs.stay z (hapart z hz), habs.moved _ hffind.symm]
        refine ⟨hxapart z hz, ?_⟩
        intro p hp
        rw [hps p hp]
        exact hpsapart z hz p hp
      · intro p hp u hu
        rw [hps p hp] at hu
        rcases habs.stands hself hu with hold | ⟨hu, -⟩
        · exact hpsjoins p hp u hold
        · exact hfork u (hseg.reach hu)
      · intro hone p hp hpatt y hy hne
        rw [hps p hp] at hne ⊢
        rw [habs.node, habs.node, habs.mR]
        rw [habs.node] at hy
        exact hlast hone p hp hpatt y hy hne
      · intro z hz
        obtain ⟨hzatt, hbefore⟩ := hm.done z hz
        exact habs.done_kept hself (hapart z hz) (hxapart z hz) hzatt hbefore

/-- The left branch is attached: the last set is that of the child. -/
theorem Merging.left (hm : Merging d done join σ c (.join fork ljp :: items) num ps)
    (hj : Joining σ c (.join fork ljp :: items) fake num ps) (hwf : d.WF)
    (hfork : ∀ u, d.Reach isDep u fork → join u) (hljp : ∀ u, d.Reach isDep u ljp → join u)
    (hforked : Forked d (.join fork ljp :: items)) (hl : σ.attached ljp = true) (hr : σ.attached fake = false)
    (num' : Nat) : Merging d done join (absorb σ (fork + 1) fork) c items num' (ps ++ [ljp]) := by
  obtain ⟨h₁, h₂, h₃, h₄, h₅⟩ := hj.bounds
  obtain ⟨hleft, hseg⟩ := hm.fork_ahead
  obtain ⟨hfx, -, hsink, -⟩ := hforked
  have hatt : σ.attached (fork + 1) = true := by rw [hj.left.1, hl]
  refine hm.takeIn hj hwf hfork hljp (Nat.lt_succ_self fork) (by omega) hatt hfx hleft.start
    (fun z hz => (hleft.apart z hz).1) ?_
  intro _ p hp hpatt y hy hne
  rcases List.mem_append.mp hp with hp | hp
  · -- the other join parents are not attached
    obtain ⟨hf, -⟩ := absorb_spec hj (Nat.lt_succ_self fork) (by omega) hatt
    obtain ⟨hrf, -, hrr, -⟩ := hj.roots
    have hpfind := (hj.right.2 hr).2.2.2 p hp
    have hrin := hrr fake (by omega) h₄
    have hsame : (absorb σ (fork + 1) fork).attached p = σ.attached fake := by
      unfold State.attached State.setOf
      rw [hf.find p (by omega), hpfind, hf.node _ (by omega)]
    rw [hsame, hr] at hpatt
    cases hpatt
  · obtain rfl : p = ljp := List.mem_singleton.mp hp
    exact hm.sound.no_entry hj.ok hl hsink hy hne

/-- The right branch is attached: there are at least two sets. -/
theorem Merging.right (hm : Merging d done join σ c (.join fork ljp :: items) num ps)
    (hj : Joining σ c (.join fork ljp :: items) fake num ps) (hwf : d.WF)
    (hfork : ∀ u, d.Reach isDep u fork → join u) (hljp : ∀ u, d.Reach isDep u ljp → join u)
    (hforked : Forked d (.join fork ljp :: items)) (hr : σ.attached fake = true) {num' : Nat} (hnum : num' ≠ 1) :
    Merging d done join (absorb σ (ljp + 1) fork) c items num' (ps ++ [ljp]) := by
  obtain ⟨h₁, h₂, h₃, h₄, h₅⟩ := hj.bounds
  exact hm.takeIn hj hwf hfork hljp (show fork < ljp + 1 by omega) (by omega) (by rw [hj.right.1, hr]) hforked.2.1
    hm.top.start (fun z hz => (hm.apart z hz).1) (fun h => absurd h hnum)

/-! ## Both branches attached

Here two edges are added whose ends are in the middle of the graph. What is asked of an edge is only that it is true:
what the first set answers for comes before the root of the second (`EdgeAdded.sound`). This is weaker than what
`add_edge` assumes, and it is why soundness survives where closure does not. -/

/-- Calls on `R` change no answer. -/
theorem SameNodes.answering (h : SameNodes σ σ') (u : Nat) : Nonblock.answering σ' u = Nonblock.answering σ u := by
  unfold Nonblock.answering
  rw [h.attached, h.find, h.setOf]

/-- Nor what stands for what. -/
theorem SameNodes.stands (h : SameNodes σ σ') {u x : Nat} (hu : Stands σ' u x) : Stands σ u x := by
  unfold Stands at hu ⊢
  rw [h.find, h.answering] at hu
  exact hu

/-- One change after another. -/
theorem Beyond.trans {n : Nat} (hb : Beyond n σ σ₁) (hb' : Beyond n σ₁ σ') : Beyond n σ σ' where
  toAgree := hb.toAgree.trans hb'.toAgree
  moved u := by
    rcases hb'.moved u with h | h
    · rw [h]
      exact hb.moved u
    · exact Or.inr h
  answers u x hu := by
    rcases hb'.answers u x hu with h | h
    · exact hb.answers u x h
    · exact Or.inr h

/-- Calls on `R` afterwards. -/
theorem Beyond.same {n : Nat} (hb : Beyond n σ σ₁) (h : SameNodes σ₁ σ') : Beyond n σ σ' where
  toAgree := hb.toAgree.trans (h.agree n)
  moved u := by
    rw [h.find]
    exact hb.moved u
  answers u x hu := by
    rw [h.answering] at hu
    exact hb.answers u x hu

/-- **An edge between two sets.** It is sound when what the first one answers for comes before the root of the
    second one. -/
theorem EdgeAdded.sound {a b : Nat} (h : EdgeAdded σ σ' (σ.setOf a).id (σ.setOf b).id) (hs : Sound d σ.mR σ)
    (hok : NodesOk σ) (hsize : σ.mR.data.length ≤ 2 ^ 64) (ha : σ.attached a = true)
    (hbefore : ∀ u, answering σ u = some (σ.find a) → d.Reach isDep u (σ.find b)) : Sound d σ'.mR σ' := by
  have hrun : σ.mR.addEdge (σ.setOf a).id (σ.setOf b).id = some σ'.mR := by
    obtain ⟨m, hstep, hend⟩ := Option.bind_eq_some_iff.mp h.did.run
    obtain rfl : m = σ'.mR := Option.some.inj hend
    exact hstep
  have hs' : Sound d σ'.mR σ := hs.addEdge hok hsize (State.attached_iff.mp ha) hrun hbefore
  refine hs'.sets (fun x => by rw [h.same.node]) ?_ ?_
  · intro x y _ hy
    rw [h.same.node] at hy
    exact Or.inl hy
  · intro u x hu
    rw [h.same.answering] at hu
    exact Or.inl hu

/-- **Both branches attached**: the fork is attached, and gets an edge to each. These are the edges that break the
    closure of the matrix, but they are true: fork and branches are in this order in the dag. From now on at least
    two sets are attached, so the join node gets a set of its own. -/
theorem Merging.both {σ₂ : State} {p : Nat} (hm : Merging d done join σ c (.join fork ljp :: items) num ps)
    (hj : Joining σ c (.join fork ljp :: items) fake num ps) (hwf : d.WF) (hroom : σ.nodes.length < 2 ^ 64)
    (hljp : ∀ u, d.Reach isDep u ljp → join u)
    (hforked : Forked d (.join fork ljp :: items)) (hp : (σ.setOf fork).attPred = some p) (hok : NodesOk σ₁) (hatt : Attachified σ σ₁ fork)
    (hdid : Did σ σ₁ (attachOps σ fork p)) (h₁ : EdgeAdded σ₁ σ₂ (σ₁.setOf fork).id (σ₁.setOf (fork + 1)).id)
    (h₂ : EdgeAdded σ₂ σ' (σ₁.setOf fork).id (σ₁.setOf (ljp + 1)).id) {num' : Nat} (hnum : num' ≠ 1) :
    Merging d done join σ' c items num' (ps ++ [ljp]) := by
  obtain ⟨hb₁, hb₂, hb₃, hb₄, hb₅⟩ := hj.bounds
  obtain ⟨hrf, -, -, -⟩ := hj.roots
  obtain ⟨hleft, hseg⟩ := hm.fork_ahead
  obtain ⟨hchild, hcont, -, -⟩ := hforked
  have hforkseg := hj.below.2.2.2.1
  have hsize : ∀ {τ : State}, NodesOk τ → τ.nodes.length = σ.nodes.length → τ.mR.data.length ≤ 2 ^ 64 := by
    intro τ hτ hlen
    have hle := hτ.data_le
    omega
  have hsame : SameNodes σ₁ σ' := ⟨h₂.same.nodes.trans h₁.same.nodes, h₂.same.parent.trans h₁.same.parent⟩
  have hfind : ∀ z, σ'.find z = σ.find z := fun z => (hsame.find z).trans (hatt.find z)
  -- the fork gets its id
  have hs₁ : Sound d σ₁.mR σ₁ := by
    refine hm.sound.attachify hj.ok hok (hsize hok hatt.length) rfl hatt hp hdid.run ?_
    intro hfatt u hu
    obtain ⟨ha, hffind, -⟩ := hj.unattached_fork hfatt
    have hpa : (σ.setOf (start items)).attPred = some p := by
      unfold State.setOf at hp ⊢
      rw [← hffind]
      exact hp
    rw [hffind]
    exact (hseg.pred ha p hpa u hu).trans hseg.start
  have hbefore : ∀ u, answering σ₁ u = some (σ₁.find fork) → d.Reach isDep u fork := by
    intro u hu
    rw [hatt.find] at hu
    exact hseg.before u (hatt.stands (Or.inr hu))
  -- and its edges
  have hs₂ : Sound d σ₂.mR σ₂ := by
    refine h₁.sound hs₁ hok (hsize hok hatt.length) hatt.attached_self ?_
    intro u hu
    rw [hatt.find (fork + 1)]
    exact ((hbefore u hu).trans hchild).trans hleft.start
  have hok₂ : NodesOk σ₂ := h₁.same.nodesOk hok h₁.data
  have hlen₂ : σ₂.nodes.length = σ.nodes.length := by rw [h₁.same.nodes, hatt.length]
  have hs' : Sound d σ'.mR σ' := by
    have h₂' : EdgeAdded σ₂ σ' (σ₂.setOf fork).id (σ₂.setOf (ljp + 1)).id := by
      rw [h₁.same.setOf, h₁.same.setOf]
      exact h₂
    refine h₂'.sound hs₂ hok₂ (hsize hok₂ hlen₂) ((h₁.same.attached fork).trans hatt.attached_self) ?_
    intro u hu
    rw [h₁.same.answering, h₁.same.find] at hu
    rw [h₁.same.find, hatt.find (ljp + 1)]
    exact ((hbefore u hu).trans hcont).trans hm.top.start
  have hattached : ∀ z, σ.attached z = true → σ'.attached z = true := fun z hz =>
    (hsame.attached z).trans (hatt.attached hz)
  have hstart : σ'.attached (start items) = true := by
    rw [hsame.attached]
    cases ha : σ.attached (start items) with
    | true => exact hatt.attached ha
    | false =>
        rw [← hatt.attached_self]
        exact State.attached_congr (by rw [hatt.find, hatt.find, (hforkseg.free ha).1])
  refine ⟨hs', Rooted.of_attached hstart ?_, hm.lower_congr hj hwf ((hatt.beyond hrf.1).same hsame), ?_, ?_, ?_, ?_, ?_⟩
  · rw [hfind]
    exact hseg.start
  · exact fun f hmem => hattached f (hm.creators f (List.mem_cons_of_mem _ hmem))
  · intro x hx
    rw [hfind, hfind]
    refine ⟨(hseg.apart x hx).1, ?_⟩
    intro q hq
    rw [hfind]
    rcases List.mem_append.mp hq with hq | hq
    · exact (hm.apart x hx).2 q hq
    · obtain rfl : q = ljp := List.mem_singleton.mp hq
      exact (hleft.apart x hx).2
  · intro q hq u hu
    rw [hfind] at hu
    have hu := hatt.stands (hsame.stands hu)
    rcases List.mem_append.mp hq with hq | hq
    · exact hm.joins q hq u hu
    · obtain rfl : q = ljp := List.mem_singleton.mp hq
      exact hljp u (hleft.before u hu)
  · exact fun h => absurd h hnum
  · intro x hx
    obtain ⟨hxatt, hxbefore⟩ := hm.done x hx
    refine ⟨hattached x hxatt, ?_⟩
    intro u hu
    rw [hfind, hsame.answering] at hu
    rcases hatt.answering hu with hold | ⟨-, heq⟩
    · exact hxbefore u hold
    · exact absurd heq (hseg.apart x hx).2

/-- **One fork**, whichever of its branches are attached: the four cases of `Handled`. -/
theorem Merging.handled {ops : List General.Op} (hm : Merging d done join σ c (.join fork ljp :: items) num ps)
    (hj : Joining σ c (.join fork ljp :: items) fake num ps) (hwf : d.WF) (hroom : σ.nodes.length < 2 ^ 64)
    (hfork : ∀ u, d.Reach isDep u fork → join u) (hljp : ∀ u, d.Reach isDep u ljp → join u)
    (hforked : Forked d (.join fork ljp :: items)) (hh : Handled σ fork ljp fake σ' ops) :
    Merging d done join σ' c items (if σ'.attached fork then num + 1 else num) (ps ++ [ljp]) := by
  obtain ⟨h₁, h₂, h₃, h₄, h₅⟩ := hj.bounds
  -- with the right branch attached there is a set already
  have hnum : σ.attached fake = true → σ'.attached fork = true →
      (if σ'.attached fork then num + 1 else num) ≠ 1 := by
    intro hr hatt
    have hpos := hj.branches.pos_iff.mpr hr
    rw [if_pos hatt]
    omega
  cases hh with
  | none hl hr => exact hm.neither hj hwf hfork hljp hl hr
  | left hl hr => exact hm.left hj hwf hfork hljp hforked hl hr _
  | right hl hr =>
      obtain ⟨hf, -⟩ := absorb_spec hj (show fork < ljp + 1 by omega) (by omega) (by rw [hj.right.1, hr])
      exact hm.right hj hwf hfork hljp hforked hr (hnum hr hf.forkAttached)
  | both hl hr hp hok hatt hdid h₁ h₂ =>
      refine hm.both hj hwf hroom hljp hforked hp hok hatt hdid h₁ h₂ (hnum hr ?_)
      rw [h₂.same.attached, h₁.same.attached]
      exact hatt.attached_self

/-- **The first loop**, by induction on the run. -/
theorem JoinRun.merging {forks : List (Nat × Nat)} {fake' num' : Nat} {ps' : List Nat} {ops : List General.Op}
    (h : JoinRun c items σ forks fake num ps σ' fake' num' ps' ops) (hwf : d.WF) (hroom : σ.nodes.length < 2 ^ 64)
    (hforked : Forked d (forks.map joinItem ++ items))
    (hjoin : ∀ x ∈ forks, (∀ u, d.Reach isDep u x.1 → join u) ∧ ∀ u, d.Reach isDep u x.2 → join u)
    (hm : Merging d done join σ c (forks.map joinItem ++ items) num ps) :
    Merging d done join σ' c items num' ps' := by
  induction h with
  | nil => exact hm
  | @step σ σ₁ σ' fork ljp forks fake fake' num num' ps ps' ops ops' hj hh hk hj' hrest ih =>
      obtain ⟨hfork, hljp⟩ := hjoin (fork, ljp) List.mem_cons_self
      refine ih ?_ hforked.2.2.2 (fun x hx => hjoin x (List.mem_cons_of_mem _ hx)) ?_
      · rw [hk.length]
        exact hroom
      · exact hm.handled hj hwf hroom hfork hljp hforked hh

end Fork

/-! ## The join node

The three ways in which the join node gets its set, one lemma for each (`Merging.end_none`, `Merging.end_one`,
`Merging.end_many`). In the last two the third loop follows, and what it does is sound for one reason: the set of the
join node is the last one, nothing has an entry after it, so an edge into it makes no entry anywhere else. -/

section Link

variable {j : Nat} {ps : List Nat} {m m' : General}

/-- What the third loop makes an answer: nothing new, or the set of the join node for a join parent's strands. -/
theorem LinkedUp.answering (h : LinkedUp σ σ' j ps) {u x : Nat} (hu : Nonblock.answering σ' u = some x) :
    Nonblock.answering σ u = some x ∨ (x = σ.find j ∧ ∃ p ∈ ps, σ.find u = σ.find p) := by
  cases hatt : σ.attached u with
  | true =>
      rw [answering_of_attached ((h.attached u).trans hatt), h.find] at hu
      rw [answering_of_attached hatt]
      exact Or.inl hu
  | false =>
      rw [answering_of_not ((h.attached u).trans hatt)] at hu
      unfold State.setOf at hu
      rw [h.find, h.node] at hu
      split at hu
      · rename_i hp
        obtain ⟨-, p, hp, hpu⟩ := hp
        exact Or.inr ⟨(Option.some.inj hu).symm, p, hp, hpu.symm⟩
      · rw [answering_of_not hatt]
        exact Or.inl hu

/-- **The edges to the join node**, when nothing has an entry after its set `r`. By induction on the join parents:
    an edge into `r` gives entries to `r` only, since nothing is behind `r` to which the code would have to pass
    them on. -/
theorem linkOps_sound {r : Nat} (hok : NodesOk σ) (hr : σ.find j = r) (hid : 0 < (σ.node r).id)
    (hps : ∀ p ∈ ps, σ.attached p = true → σ.find p = r ∨
      ∀ u, answering σ u = some (σ.find p) → d.Reach isDep u r)
    (hrun : (linkOps σ j ps).foldlM General.step m = some m') (hsize : m.data.length ≤ 2 ^ 64) (hs : Sound d m σ)
    (hlast : ∀ y, 0 < (σ.node y).id → r ≠ y → ¬m.Has (σ.node r).id (σ.node y).id) :
    Sound d m' σ ∧ ∀ y, 0 < (σ.node y).id → r ≠ y → ¬m'.Has (σ.node r).id (σ.node y).id := by
  induction ps generalizing m with
  | nil =>
      obtain rfl : m = m' := Option.some.inj hrun
      exact ⟨hs, hlast⟩
  | cons p ps ih =>
      have hrest : ∀ q ∈ ps, σ.attached q = true → σ.find q = r ∨
          ∀ u, answering σ u = some (σ.find q) → d.Reach isDep u r := fun q hq => hps q (List.mem_cons_of_mem p hq)
      cases hatt : σ.attached p with
      | false =>
          rw [linkOps, List.filter_cons_of_neg (by simp [hatt])] at hrun
          exact ih hrest hrun hsize hs hlast
      | true =>
          rw [linkOps, List.filter_cons_of_pos hatt, List.map_cons, List.foldlM_cons] at hrun
          obtain ⟨m₁, hedge, hrun⟩ := Option.bind_eq_some_iff.mp hrun
          have hedge : m.addEdge (σ.node (σ.find p)).id (σ.node (σ.find j)).id = some m₁ := hedge
          rw [hr] at hedge
          refine ih hrest hrun ?_ ?_ ?_
          · rw [General.length_addEdge hedge]
            exact hsize
          · rcases hps p List.mem_cons_self hatt with hpr | hbefore
            · -- a loop changes nothing
              rw [hpr, General.addEdge, if_pos rfl] at hedge
              obtain rfl := Option.some.inj hedge
              exact hs
            · exact hs.addEdge hok hsize (State.attached_iff.mp hatt) hedge hbefore
          · intro y hy hne hhas
            rcases (General.has_addEdge hedge hsize _ _).mp hhas with hold | ⟨hyr, -, -⟩
            · exact hlast y hy hne hold
            · exact hne (hs.unique r y hid hyr.symm)

/-- **The third loop is sound**, edges and successors together. An unattached join parent gets the set of the join
    node as its successor, and nothing has an entry after that set. -/
theorem LinkedUp.sound {r : Nat} (h : LinkedUp σ σ' j ps) (hok : NodesOk σ) (hsize : σ.mR.data.length ≤ 2 ^ 64)
    (hr : σ.find j = r) (hid : 0 < (σ.node r).id)
    (hps : ∀ p ∈ ps, σ.attached p = true → σ.find p = r ∨
      ∀ u, Nonblock.answering σ u = some (σ.find p) → d.Reach isDep u r)
    (hs : Sound d σ.mR σ) (hlast : ∀ y, 0 < (σ.node y).id → r ≠ y → ¬σ.mR.Has (σ.node r).id (σ.node y).id) :
    Sound d σ'.mR σ' := by
  obtain ⟨hs', hlast'⟩ := linkOps_sound hok hr hid hps h.did.run hsize hs hlast
  refine hs'.sets h.id ?_ ?_
  · intro x y _ hy
    rw [h.node] at hy
    split at hy
    · obtain rfl : σ.find j = y := Option.some.inj hy
      rw [hr]
      exact Or.inr hid
    · exact Or.inl hy
  · intro u x hu
    rcases h.answering hu with hold | ⟨rfl, -⟩
    · exact Or.inl hold
    · rw [hr]
      exact Or.inr fun y hy hne hhas => absurd hhas (hlast' y hy hne)

/-- The third loop writes to nodes of the block only. -/
theorem LinkedUp.beyond {n : Nat} (h : LinkedUp σ σ' j ps) (hj : n ≤ σ.find j) (hps : ∀ p ∈ ps, n ≤ σ.find p) :
    Beyond n σ σ' where
  find z _ := h.find z
  node z hz := by
    rw [h.node, if_neg]
    rintro ⟨-, p, hp, rfl⟩
    have hle := hps p hp
    omega
  moved u := Or.inl (h.find u)
  answers u x hu := by
    rcases h.answering hu with hold | ⟨rfl, -⟩
    · exact Or.inl hold
    · exact Or.inr hj

/-- **The join node runs** in an attached set: `σ₁` is the state in which it has got the set. The hypotheses are
    what the three ways of getting the set have in common; the conclusion is `Told`, for the dag that has the join
    node. -/
theorem LinkedUp.told {c r fake num : Nat} {join : Nat → Prop} (h : LinkedUp σ₁ σ' (c + 1) ps)
    (hm : Merging d done join σ c items num ps) (hj : Joining σ c items fake num ps) (hwf : d.WF)
    (hd : ∀ u y, d.Reach isDep u y → d'.Reach isDep u y) (hforked : Forked d' items)
    (hstart : σ.attached (start items) = true) (hok : NodesOk σ₁) (hsize : σ₁.mR.data.length ≤ 2 ^ 64)
    (hs : Sound d' σ₁.mR σ₁) (hb : Beyond (start items) σ σ₁) (hfind : ∀ z, z ≤ c → σ₁.find z = σ.find z)
    (hid : ∀ z, z ≤ c → (σ₁.node z).id = (σ.node z).id)
    (hans : ∀ u x, x ≤ c → x ≠ r → Nonblock.answering σ₁ u = some x → Nonblock.answering σ u = some x)
    (hr : σ₁.find (c + 1) = r) (hrid : 0 < (σ₁.node r).id) (hrstart : start items ≤ r)
    (hapart : ∀ x, done x → σ.find x ≠ r)
    (hlast : ∀ y, 0 < (σ₁.node y).id → r ≠ y → ¬σ₁.mR.Has (σ₁.node r).id (σ₁.node y).id)
    (hps : ∀ p ∈ ps, σ₁.attached p = true → σ₁.find p = r ∨
      ∀ u, Nonblock.answering σ₁ u = some (σ₁.find p) → d'.Reach isDep u r)
    (hstands : ∀ u, Stands σ₁ u r → d'.Reach isDep u (c + 1))
    (hparents : ∀ p ∈ ps, ∀ u, σ₁.find u = σ₁.find p → d'.Reach isDep u (c + 1)) :
    Told d' done σ'.mR σ' items (c + 1) := by
  have hle := hj.span.le
  have hattached : ∀ z, σ.attached z = true → σ'.attached z = true := by
    intro z hz
    have hzc := hj.le_of_attached hz
    have hroot := hj.le_of_attached (hj.ok.attached_of_id (State.attached_iff.mp hz))
    rw [h.attached, State.attached_iff, hfind z hzc, hid _ hroot]
    exact State.attached_iff.mp hz
  have hdone : ∀ x, done x → x ≤ c ∧ σ.find x ≤ c := by
    intro x hx
    have hxatt := (hm.done x hx).1
    exact ⟨hj.le_of_attached hxatt, hj.le_of_attached (hj.ok.attached_of_id (State.attached_iff.mp hxatt))⟩
  have hbeyond : Beyond (start items) σ₁ σ' := by
    refine h.beyond (by rw [hr]; exact hrstart) ?_
    intro p hp
    obtain ⟨hpa, hpc⟩ := hj.parents p hp
    rw [hfind p hpc]
    exact (hj.span.within p hpa hpc).1
  refine ⟨h.sound hok hsize hr hrid hps hs hlast, ⟨Rooted.of_attached (hattached _ hstart) ?_, ?_, ?_⟩, ?_, hforked, ?_, ?_⟩
  · rw [h.find, hfind _ hle]
    exact hd _ _ hm.top.start
  · intro u hu
    rw [h.find, hr] at hu
    rcases hu with hu | hu
    · rw [h.find] at hu
      exact hstands u (Or.inl hu)
    · rcases h.answering hu with hold | ⟨-, p, hp, hpu⟩
      · exact hstands u (Or.inr hold)
      · exact hparents p hp u hpu
  · intro x hx
    obtain ⟨hxc, -⟩ := hdone x hx
    rw [h.find, h.find, h.find, hr, hfind x hxc, hfind _ hle]
    exact ⟨(hm.apart x hx).1, hapart x hx⟩
  · intro s hs
    obtain ⟨hspan, hlt⟩ := hj.below.lower_span s hs
    exact (hm.lower s hs).congr (hb.trans hbeyond) hj.ok hwf hj.below.find_lt hspan.le hlt hd (fun x hx => Or.inl hx)
  · exact fun f hmem => hattached f (hm.creators f hmem)
  · intro x hx
    obtain ⟨hxc, hroot⟩ := hdone x hx
    obtain ⟨hxatt, hbefore⟩ := hm.done x hx
    refine ⟨hattached x hxatt, ?_⟩
    intro u hu
    rw [h.find, hfind x hxc] at hu
    rcases h.answering hu with hold | ⟨heq, -⟩
    · exact hd _ _ (hbefore u (hans u _ hroot (hapart x hx) hold))
    · exact absurd (heq.trans hr) (hapart x hx)

end Link

section Finish

variable {c fake num : Nat} {ps : List Nat} {join : Nat → Prop}

/-- Nothing is attached: the join node goes on in the set of the block. The set has no row, and its strands come
    before the join node. -/
theorem Merging.end_none (hm : Merging d done join σ c items 0 ps) (hj : Joining σ c items fake 0 ps) (hwf : d.WF)
    (hd : ∀ u y, d.Reach isDep u y → d'.Reach isDep u y) (hjoin : ∀ u, join u → d'.Reach isDep u (c + 1))
    (hforked : Forked d' items) :
    Told d' done (σ.merge c (c + 1)).mR (σ.merge c (c + 1)) items (c + 1) := by
  have hle := hj.span.le
  have hlen := hj.length
  obtain ⟨ha, hsucc, hps⟩ : σ.attached (start items) = false ∧ (σ.setOf (start items)).attSucc = none ∧
      ∀ p ∈ ps, σ.find p = σ.find (start items) := by
    cases hj.branches with
    | none ha _ hsucc hps => exact ⟨ha, hsucc, hps⟩
    | many hnum => exact absurd hnum (by decide)
  have hcfind := hps c hj.cur
  have hcin := hj.span.within c hle (Nat.le_refl c)
  have habs : Absorbed σ (σ.merge c (c + 1)) (fun z => z = c + 1) (σ.find c) := by
    have hmerge := State.find_merge hj.ok (show c < σ.nodes.length by omega) (show c + 1 < σ.nodes.length by omega)
    refine ⟨fun _ => rfl, rfl, hj.ok.find_find _, ?_, ?_⟩
    · rintro z rfl
      rw [hmerge, if_pos rfl]
    · intro z hz
      rw [hmerge, hj.joinRoot, if_neg (hj.find_ne z hz)]
  generalize σ.merge c (c + 1) = σ' at habs ⊢
  have hfree : σ.attached (σ.find c) = false := by
    rw [State.attached_congr (hj.ok.find_find c), State.attached_congr hcfind, ha]
  have hself : ∀ x, answering σ (σ.find c) = some x → x = σ.find c := by
    refine answering_root (hj.ok.find_find _) (fun _ => ?_)
    unfold State.setOf at hsucc ⊢
    rw [hj.ok.find_find, hcfind]
    exact hsucc
  have hcid : (σ.node (σ.find c)).id = 0 := by
    rw [State.not_attached, hj.ok.find_find] at hfree
    exact hfree
  have hbeyond : Beyond (start items) σ σ' := by
    refine habs.beyond hself hcin.1 ?_
    intro z hz heq
    omega
  have hstart : start items ≠ c + 1 := by omega
  have hdone : ∀ x, done x → x ≠ c + 1 := by
    intro x hx
    have hxc := hj.le_of_attached (hm.done x hx).1
    omega
  refine ⟨?_, ⟨⟨?_, ?_, ?_⟩, ?_, ?_⟩, ?_, hforked, ?_, ?_⟩
  · refine habs.sound (hm.sound.grow hd) hself ?_
    intro u _ y hid
    omega
  · rw [habs.stay _ hstart]
    exact hd _ _ hm.top.start
  · intro _ p hp u hu
    rw [habs.setOf_stay hstart] at hp
    rcases habs.answers hself hu with hold | ⟨-, rfl⟩
    · exact hd _ _ (hm.top.pred ha p hp u hold)
    · have hpid := hj.ok.pred _ _ hp
      omega
  · intro _ z hza hzw
    rw [habs.stay _ hstart]
    by_cases hz : z = c + 1
    · rw [habs.moved z hz, hcfind]
    · rw [habs.stay z hz]
      exact hm.top.whole ha z hza (by omega)
  · intro u hu
    rw [habs.moved _ rfl] at hu
    rcases habs.stands hself hu with hold | ⟨rfl, -⟩
    · exact hjoin u (hm.joins c hj.cur u hold)
    · exact Dag.Reach.refl _
  · intro x hx
    rw [habs.stay x (hdone x hx), habs.stay _ hstart, habs.moved _ rfl]
    exact ⟨(hm.apart x hx).1, (hm.apart x hx).2 c hj.cur⟩
  · intro s hs
    obtain ⟨hspan, hlt⟩ := hj.below.lower_span s hs
    exact (hm.lower s hs).congr hbeyond hj.ok hwf hj.below.find_lt hspan.le hlt hd (fun x hx => Or.inl hx)
  · intro f hmem
    have hlt := hj.below.creator_lt hmem
    rw [habs.attached_stay (show f ≠ c + 1 by omega)]
    exact hm.creators f hmem
  · intro x hx
    obtain ⟨hxatt, hbefore⟩ := hm.done x hx
    exact habs.done_kept hself (hdone x hx) ((hm.apart x hx).2 c hj.cur) hxatt (fun u hu => hd _ _ (hbefore u hu))

/-- A single attached set takes the join node in. It has no entries, and the join node comes after all its strands.
    -/
theorem Merging.end_one {r : Nat} (hm : Merging d done join σ c items 1 ps) (hj : Joining σ c items fake 1 ps)
    (hwf : d.WF) (hroom : σ.nodes.length < 2 ^ 64) (hd : ∀ u y, d.Reach isDep u y → d'.Reach isDep u y)
    (hjoin : ∀ u, join u → d'.Reach isDep u (c + 1)) (hforked : Forked d' items)
    (hid : 0 < (σ.node r).id) (hps : ∀ p ∈ ps, σ.attached p = true → σ.find p = r)
    (hex : ∃ p ∈ ps, σ.attached p = true) (h₁ : JoinAt σ σ₁ (c + 1) r) (hr : σ₁.find (c + 1) = r)
    (h' : LinkedUp σ₁ σ' (c + 1) ps) : Told d' done σ'.mR σ' items (c + 1) := by
  have hle := hj.span.le
  obtain ⟨q, hq, hqatt⟩ := hex
  have hqr := hps q hq hqatt
  obtain ⟨hqa, hqc⟩ := hj.parents q hq
  have hrin := hj.span.within q hqa hqc
  rw [hqr] at hrin
  have hratt := hj.ok.attached_of_id hid
  have habs : Absorbed σ σ₁ (fun z => z = c + 1) r :=
    ⟨h₁.node, h₁.mR, hj.ok.root r hid, fun z hz => by rw [hz, hr], h₁.find⟩
  have hself : ∀ x, answering σ r = some x → x = r :=
    answering_root (hj.ok.root r hid) (fun h => absurd (hratt.symm.trans h) (by decide))
  have hlast : ∀ y, 0 < (σ.node y).id → r ≠ y → ¬σ.mR.Has (σ.node r).id (σ.node y).id := by
    have h := hm.last rfl q hq hqatt
    rw [hqr] at h
    exact h
  have hjoins : ∀ u, Stands σ u r → d'.Reach isDep u (c + 1) := fun u hu =>
    hjoin u (hm.joins q hq u (by rw [hqr]; exact hu))
  have hstart : σ.attached (start items) = true := by
    cases hj.branches with
    | one _ ha => exact ha
    | many _ ha => exact ha
  have hpne : ∀ p ∈ ps, p ≠ c + 1 := by
    intro p hp
    have hin := hj.parents p hp
    omega
  refine h'.told hm hj hwf hd hforked hstart h₁.ok ?_ ?_ ?_ (fun z hz => h₁.find z (by omega)) (fun z _ => by rw [h₁.node])
    ?_ hr (by rw [h₁.node]; exact hid) hrin.1 ?_ ?_ ?_ ?_ ?_
  · have hdata := h₁.ok.data_le
    rw [h₁.nodes] at hdata
    omega
  · refine habs.sound (hm.sound.grow hd) hself ?_
    intro u _ y _ hy hne hhas
    exact absurd hhas (hlast y hy hne)
  · refine habs.beyond hself hrin.1 ?_
    intro z hz heq
    omega
  · intro u x _ hxr hu
    rcases habs.answers hself hu with hold | ⟨-, heq⟩
    · exact hold
    · exact absurd heq hxr
  · intro x hx
    rw [← hqr]
    exact (hm.apart x hx).2 q hq
  · intro y hy hne
    rw [h₁.node, h₁.node, h₁.mR]
    rw [h₁.node] at hy
    exact hlast y hy hne
  · intro p hp hpatt
    rw [h₁.attached (hpne p hp)] at hpatt
    rw [h₁.find p (hpne p hp)]
    exact Or.inl (hps p hp hpatt)
  · intro u hu
    rcases habs.stands hself hu with hold | ⟨rfl, -⟩
    · exact hjoins u hold
    · exact Dag.Reach.refl _
  · intro p hp u hu
    by_cases hu' : u = c + 1
    · rw [hu']
      exact Dag.Reach.refl _
    · rw [h₁.find u hu', h₁.find p (hpne p hp)] at hu
      exact hjoin u (hm.joins p hp u (Or.inl hu))

/-- Several attached sets: the join node is one of its own. Its row is empty when it is made, and the edges to it
    come from join parents, which are before it. -/
theorem Merging.end_many (hm : Merging d done join σ c items num ps) (hj : Joining σ c items fake num ps)
    (hwf : d.WF) (hroom : σ.nodes.length < 2 ^ 64) (hd : ∀ u y, d.Reach isDep u y → d'.Reach isDep u y)
    (hjoin : ∀ u, join u → d'.Reach isDep u (c + 1)) (hforked : Forked d' items) (hnum : 2 ≤ num)
    (h₁ : σ₁ = (σ.addNode.1.modify (c + 1) fun n => { n with id := σ.addNode.2 }).setSelf (c + 1))
    (hok : NodesOk σ₁) (h' : LinkedUp σ₁ σ' (c + 1) ps) : Told d' done σ'.mR σ' items (c + 1) := by
  have hle := hj.span.le
  have hlen := hj.length
  have hfind : ∀ z, σ₁.find z = σ.find z := fun z => by rw [h₁]; rfl
  have hR : σ₁.mR = σ.mR.addNode.1 := by rw [h₁]; rfl
  have hlen₁ : σ₁.nodes.length = σ.nodes.length := by
    rw [h₁]
    simp [State.setSelf, State.modify, State.addNode]
  obtain ⟨hnew, hnode⟩ : (σ₁.node (c + 1)).id = σ.mR.data.length ∧ ∀ z, z ≠ c + 1 → σ₁.node z = σ.node z := by
    have hjn : c + 1 < σ.addNode.1.nodes.length := by
      show c + 1 < σ.nodes.length
      omega
    have hlt : c + 1 < (σ.addNode.1.modify (c + 1) fun n => { n with id := σ.addNode.2 }).nodes.length := by
      simp only [State.modify, List.length_modify]
      exact hjn
    refine ⟨?_, ?_⟩
    · rw [h₁, State.setSelf, State.node_modify hlt, if_pos rfl, State.node_modify hjn, if_pos rfl]
      rfl
    · intro z hz
      rw [h₁, State.setSelf, State.node_modify hlt, if_neg hz, State.node_modify hjn, if_neg hz]
      rfl
  clear h₁
  have hroot : σ₁.find (c + 1) = c + 1 := (hfind _).trans hj.joinRoot
  have hjid : (σ.node (c + 1)).id = 0 := by rw [hj.joinNode]
  have hpos := hm.sound.length_pos
  -- only the join node answers for itself that did not do so before
  have hans : ∀ u x, answering σ₁ u = some x → x ≠ c + 1 → answering σ u = some x := by
    intro u x hu hx
    have hu' : u ≠ c + 1 := by
      rintro rfl
      rw [answering_of_attached (hok.attached_of_id (by rw [hnew]; exact hpos)), hroot] at hu
      exact hx (Option.some.inj hu).symm
    have hset : σ₁.setOf u = σ.setOf u := by
      unfold State.setOf
      rw [hfind, hnode _ (hj.find_ne u hu')]
    unfold answering State.attached at hu ⊢
    rw [hset, hfind] at hu
    exact hu
  have hself : ∀ u, answering σ₁ u = some (c + 1) → u = c + 1 := by
    intro u hu
    by_contra hne
    have hset : σ₁.setOf u = σ.setOf u := by
      unfold State.setOf
      rw [hfind, hnode _ (hj.find_ne u hne)]
    have hold : answering σ u = some (c + 1) := by
      unfold answering State.attached at hu ⊢
      rw [hset, hfind] at hu
      exact hu
    have hid := hm.sound.answering_id hold
    omega
  have hsound : Sound d' σ₁.mR σ₁ := by
    rw [hR]
    refine (hm.sound.grow hd).giveId (x := c + 1) ?_ hnew hjid ?_ hans
    · intro z hz
      rw [hnode z hz]
    · intro z hz
      rw [hnode z hz]
  have hstart : σ.attached (start items) = true := by
    cases hj.branches with
    | none => exact absurd hnum (by decide)
    | one => exact absurd hnum (by decide)
    | many _ ha => exact ha
  refine h'.told hm hj hwf hd hforked hstart hok ?_ hsound ?_ (fun z _ => hfind z) (fun z hz => by rw [hnode z (by omega)])
    (fun u x _ hxr hu => hans u x hu hxr) hroot (by rw [hnew]; exact hpos) (by omega) ?_ ?_ ?_ ?_ ?_
  · have hdata := hok.data_le
    omega
  · refine ⟨⟨fun z _ => hfind z, fun z hz => hnode z (by omega)⟩, fun u => Or.inl (hfind u), ?_⟩
    intro u x hu
    by_cases hx : x = c + 1
    · exact Or.inr (by omega)
    · exact Or.inl (hans u x hu hx)
  · intro x hx
    have hxc := hj.le_of_attached (hm.done x hx).1
    exact hj.find_ne x (by omega)
  · -- no entry is about the new id
    intro y _ _ hhas
    rw [hR, hnew] at hhas
    exact absurd (hm.sound.bound _ _ (General.has_addNode.mp hhas)) (Nat.lt_irrefl _)
  · intro p hp _
    refine Or.inr fun u hu => ?_
    obtain ⟨hpa, hpc⟩ := hj.parents p hp
    have hin := hj.span.within p hpa hpc
    rw [hfind] at hu
    exact hjoin u (hm.joins p hp u (Or.inr (hans u _ hu (by omega))))
  · intro u hu
    rcases hu with hu | hu
    · rw [hfind] at hu
      by_contra hne
      have hne' : u ≠ c + 1 := by
        rintro rfl
        exact hne (Dag.Reach.refl _)
      exact hj.find_ne u hne' hu
    · rw [hself u hu]
      exact Dag.Reach.refl _
  · intro p hp u hu
    rw [hfind, hfind] at hu
    exact hjoin u (hm.joins p hp u (Or.inl hu))

/-- **The join node gets its set**, in each of the three ways. -/
theorem Finished.told {ops : List General.Op} (h : Finished σ c num ps σ' ops)
    (hm : Merging d done join σ c items num ps) (hj : Joining σ c items fake num ps) (hwf : d.WF)
    (hroom : σ.nodes.length < 2 ^ 64) (hd : ∀ u y, d.Reach isDep u y → d'.Reach isDep u y)
    (hjoin : ∀ u, join u → d'.Reach isDep u (c + 1)) (hforked : Forked d' items) :
    Told d' done σ'.mR σ' items (c + 1) := by
  cases h with
  | none => exact hm.end_none hj hwf hd hjoin hforked
  | one r hid hself hps hex h₁ hr h' => exact hm.end_one hj hwf hroom hd hjoin hforked hid hps hex h₁ hr h'
  | many hnum h₁ hok h' => exact hm.end_many hj hwf hroom hd hjoin hforked hnum h₁ hok h'

end Finish

/-! ## `perform_join`

Before the first loop the only join parent is the running strand, and its segment is still as `Told` says, which is
`Merging` with no fork handled. Behind the third loop the dag has the join node, and `Told` holds again. -/

/-- What is below the block. -/
theorem Forked.drop {forks : List (Nat × Nat)} (h : Forked d (forks.map joinItem ++ items)) : Forked d items := by
  induction forks with
  | nil => exact h
  | cons x forks ih => exact ih h.2.2.2

/-- And its segments. -/
theorem Below.drop {forks : List (Nat × Nat)} (h : Below σ (forks.map joinItem ++ items)) : Below σ items := by
  induction forks with
  | nil => exact h
  | cons x forks ih => exact ih h.2.2.2.2

/-- The forks of a block lie after what is below it. -/
theorem below_forks_ge {forks : List (Nat × Nat)} (hb : Below σ (forks.map joinItem ++ items)) :
    ∀ x ∈ forks, start items < x.2 := by
  induction forks with
  | nil => exact fun x hx => nomatch hx
  | cons y forks ih =>
      obtain ⟨hleft, -, -, hseg, hrest⟩ := hb
      have hle : y.1 + 1 ≤ y.2 := hleft.le
      have hle' : start (forks.map joinItem ++ items) ≤ y.1 := hseg.le
      have ih := ih hrest
      intro x hx
      rcases List.mem_cons.mp hx with rfl | hx
      · cases forks with
        | nil =>
            have hstart : start items ≤ x.1 := hle'
            omega
        | cons z forks =>
            have hz := ih z List.mem_cons_self
            have hstart : z.2 + 1 ≤ x.1 := hle'
            omega
      · exact ih x hx

/-- The block lies above it. -/
theorem Below.start_le {forks : List (Nat × Nat)} (hb : Below σ (forks.map joinItem ++ items)) :
    start items ≤ start (forks.map joinItem ++ items) := by
  cases forks with
  | nil => exact Nat.le_refl _
  | cons y forks =>
      have hlt := below_forks_ge hb y List.mem_cons_self
      show start items ≤ y.2 + 1
      omega

/-- Before the first fork is handled: the running strand is the only join parent, and `num_attached` counts whether
    it is attached. -/
theorem Told.merging {forks : List (Nat × Nat)} {join : Nat → Prop}
    (ht : Told d done σ.mR σ (forks.map joinItem ++ items) σ.tCurrent) (hwf : d.WF) (hok : NodesOk σ)
    (hl : Live σ (forks.map joinItem ++ items) σ.tCurrent) (hcur : σ.tCurrent + 1 = σ.nodes.length)
    (hlen : d.length = σ.nodes.length) (hjoin : ∀ u, d.Reach isDep u σ.tCurrent → join u) :
    Merging d done join (σ.newNode 0).1 σ.tCurrent (forks.map joinItem ++ items)
      (if (σ.newNode 0).1.attached σ.tCurrent then 1 else 0) [σ.tCurrent] := by
  have hlt : σ.tCurrent < σ.nodes.length := hcur ▸ Nat.lt_succ_self _
  have hnew := newNode_new hok.forest 0
  have hsound : Sound d (σ.newNode 0).1.mR (σ.newNode 0).1 := hnew.sound hok ht.sound rfl rfl
  have hahead := ht.lower_new hnew hok hwf (fun _ => rfl) hl.seg.le hl.below hlt (fun _ _ h => h)
    (fun x hx => Or.inl hx)
  have htop : Ahead d done (σ.newNode 0).1 (start (forks.map joinItem ++ items)) σ.tCurrent :=
    hahead (_, _) List.mem_cons_self
  have hone : ∀ p ∈ [σ.tCurrent], p = σ.tCurrent := fun p hp => List.mem_singleton.mp hp
  refine ⟨hsound, htop.toRooted, fun s hs => hahead s (List.mem_cons_of_mem _ hs), ?_, ?_, ?_, ?_, ?_⟩
  · exact fun fork hmem => hnew.attached_kept (ht.creators fork hmem)
  · intro x hx
    refine ⟨(htop.apart x hx).1, ?_⟩
    intro p hp
    rw [hone p hp]
    exact (htop.apart x hx).2
  · intro p hp u hu
    rw [hone p hp] at hu
    exact hjoin u (htop.before u hu)
  · intro _ p hp hatt y hy hne
    rw [hone p hp] at hatt hne ⊢
    exact hsound.no_entry hok.newNode hatt (sink_last hwf (by omega)) hy hne
  · intro x hx
    obtain ⟨hatt, hbefore⟩ := ht.done x hx
    exact hnew.done_kept hok (fun _ => rfl) hatt hbefore

/-- **A sync.** The edges of the sync are from the running strand and from the last strands of the children, so
    exactly the join parents come right before the join node; every strand of the block comes before one of them,
    and so before it. -/
theorem Synced.told {forks : List (Nat × Nat)} {ops : List General.Op} {es : List (InEdge EdgeKind)}
    (h : Synced σ items forks σ' ops) (ht : Told d done σ.mR σ (forks.map joinItem ++ items) σ.tCurrent)
    (hwf : d.WF) (hok : NodesOk σ) (hroom : σ.nodes.length + 1 < 2 ^ 64)
    (hl : Live σ (forks.map joinItem ++ items) σ.tCurrent) (hcur : σ.tCurrent + 1 = σ.nodes.length)
    (hlen : d.length = σ.nodes.length) (hes : ∀ x, (∃ e ∈ es, isDep e.kind ∧ e.src = x) ↔
      x = σ.tCurrent ∨ ∃ y ∈ forks, y.2 = x) (hforks : ∀ x ∈ forks, d.Reach isDep x.1 x.2) :
    Told (d ++ [es]) done σ'.mR σ' items σ.nodes.length := by
  have hlt : σ.tCurrent < σ.nodes.length := hcur ▸ Nat.lt_succ_self _
  have hedge : ∀ x, x = σ.tCurrent ∨ (∃ y ∈ forks, y.2 = x) → ∀ u, d.Reach isDep u x →
      Dag.Reach (d ++ [es]) isDep u σ.nodes.length := by
    intro x hx u hu
    obtain ⟨e, he, hk, rfl⟩ := (hes x).mpr hx
    rw [← hlen]
    exact (hu.concat es).trans (Dag.reach_new_of_edge he hk)
  have hforked : Forked (d ++ [es]) items := by
    have hdrop : Forked d items := ht.forked.drop
    refine hdrop.concat ?_
    intro fork ljp hmem e he hk heq
    have hbelow : Below σ items := hl.below.drop
    have hljp := hbelow.join_lt hmem
    rcases (hes e.src).mp ⟨e, he, hk, rfl⟩ with hc | ⟨y, hy, hye⟩
    · have hle := hl.below.start_le
      have hle' := hl.seg.le
      omega
    · have hge := below_forks_ge hl.below y hy
      omega
  cases h with
  | @mk σ₁ _ fake num ps ops ops' h₁ hj h' =>
      have hm : Merging d done (fun u => Dag.Reach (d ++ [es]) isDep u σ.nodes.length) (σ.newNode 0).1 σ.tCurrent
          (forks.map joinItem ++ items) (if (σ.newNode 0).1.attached σ.tCurrent then 1 else 0) [σ.tCurrent] :=
        ht.merging hwf hok hl hcur hlen (hedge _ (Or.inl rfl))
      have hroom₁ : (σ.newNode 0).1.nodes.length < 2 ^ 64 := by
        rw [(newNode_new hok.forest 0).length]
        exact hroom
      have hm' := h₁.merging hwf hroom₁ ht.forked (fun x hx => ⟨fun u hu => hedge x.2 (Or.inr ⟨x, hx, rfl⟩) u
        (hu.trans (hforks x hx)), hedge x.2 (Or.inr ⟨x, hx, rfl⟩)⟩) hm
      rw [← hcur]
      refine h'.told hm' hj hwf ?_ (fun _ _ h => h.concat es) (fun u hu => by rw [hcur]; exact hu) hforked
      rw [h₁.kept.length]
      exact hroom₁

end FOrder.Futurerd.Nonblock
