import FOrder.Rdtool.OwnFuture

/-!
# `Rdtool.ListsSound` — every strand in a list is a real predecessor

A list on the stack holds strands with a path to the strand at which its frame is, a sync list strands with a path
to the last strand of a finished child, and the list of a finished future strands with a path to the future's last
strand. So whatever a query finds in the list of the current frame is a real predecessor.

`Known` says this of one list and the strands it may be asked for, `FramesKnown` of all frames: a frame below
another is asked for at the strand where it forked, not at the current one. An event moves some of these strands on
and takes no path away (`Later`), so most lists stay as right as they were (`FramesKnown.mono`). What an event does
to the others is one lemma for each event, `listsOk_…`.

Lists are shared: a called function uses the list of its caller, and a child the list of its parent. The
constructors make new lists and leave the old ones alone, but `Merge` writes to a sync list in place. `PtrsOk` is why
that is harmless: a sync list belongs to one frame, and nobody holds it for reading.
-/

namespace FOrder.Rdtool

open Serial (State Event FutId Strand Step EdgeKind Ok StackOk FramesOk isForkJoin isDep kind_new)

/-- The strands in `l`, by their nodes and future ids, have paths to `targets`. -/
def Known (d : Dag EdgeKind) (nodes : List OmNode) (futs : List Nat) (l : NodeList) (targets : List Strand) :
    Prop :=
  ∀ F n, l.Knows F n → ∃ y G, nodes[y]? = some n ∧ futs[y]? = some G ∧ F = G % 2 ^ 32 ∧
    ∃ w ∈ targets, d.Reach isDep y w

/-- The lists of the frames on the stack, the top one at strand `w`. -/
def FramesKnown (d : Dag EdgeKind) (nodes : List OmNode) (futs : List Nat) (lists : List NodeList) :
    Strand → List Serial.Frame → List FrameData → Prop
  | w, f :: rest, g :: grest =>
      Known d nodes futs (lists.getD g.currentList .new) [w] ∧
      (∀ l, g.syncList = some l → Known d nodes futs (lists.getD l .new) (f.children.map Serial.Child.last)) ∧
      FramesKnown d nodes futs lists (f.kind.outer w) rest grest
  | _, _, _ => True

/-- The lists that only a sync may write to. -/
def syncLists (stack : List FrameData) : List ListPtr := stack.filterMap FrameData.syncList

/-- Someone holds the list for reading. -/
def Held (stack : List FrameData) (handles : List (Option ListPtr)) (l : ListPtr) : Prop :=
  (∃ g ∈ stack, g.currentList = l) ∨ some l ∈ handles

/-- No two frames have one sync list, and a sync list is not held. -/
structure PtrsOk (n : Nat) (stack : List FrameData) (handles : List (Option ListPtr)) : Prop where
  nodup : (syncLists stack).Nodup
  notHeld : ∀ l ∈ syncLists stack, ¬Held stack handles l
  syncLt : ∀ l ∈ syncLists stack, l < n
  heldLt : ∀ l, Held stack handles l → l < n

/-- All lists in use: those of the frames, and those that finished futures have left. -/
structure ListsOk (s : State) (lists : List NodeList) (stack : List FrameData)
    (handles : List (Option ListPtr)) (nodes : List OmNode) (futs : List Nat) : Prop where
  ptrs : PtrsOk lists.length stack handles
  frames : FramesKnown s.dag nodes futs lists s.cur s.frames stack
  handles : ∀ (fut : FutId) (fin : Serial.Finished), s.futures[fut]? = some (some fin) →
    ∀ l, handles[fut]? = some (some l) → Known s.dag nodes futs (lists.getD l .new) [fin.last]

/-! ## Later states

Monotonicity, in all the senses that the events need: strands, nodes and futures are added at the end and never
changed, paths are never lost, and writing to one list changes nothing for those who hold another. -/

/-- Strands and paths are only added. -/
structure Later (d d' : Dag EdgeKind) (nodes nodes' : List OmNode) (futs futs' : List Nat) : Prop where
  nodes : nodes <+: nodes'
  futs : futs <+: futs'
  reach : ∀ x y, y < d.length → d.Reach isDep x y → d'.Reach isDep x y

/-- Two states of the lists agree on what a frame holds. -/
def SameLists (lists lists' : List NodeList) (g : FrameData) : Prop :=
  lists'.getD g.currentList .new = lists.getD g.currentList .new ∧
    ∀ l, g.syncList = some l → lists'.getD l .new = lists.getD l .new

section Later

variable {d d' : Dag EdgeKind} {nodes nodes' : List OmNode} {futs futs' : List Nat}
  {lists lists' : List NodeList}

/-- What is at an index stays there. -/
theorem getElem?_of_prefix {α : Type} {l l' : List α} (h : l <+: l') {i : Nat} {a : α} (hi : l[i]? = some a) :
    l'[i]? = some a := by
  obtain ⟨more, rfl⟩ := h
  rw [List.getElem?_append_left (List.getElem?_eq_some_iff.mp hi).1, hi]

/-- A list that was right stays right when its strands move on along paths: the nodes and futures of old strands
    stay what they were, and a path to an old strand goes on to the one it has moved to. -/
theorem Known.mono {l : NodeList} {targets targets' : List Strand} (hl : Later d d' nodes nodes' futs futs')
    (hlt : ∀ w ∈ targets, w < d.length)
    (ht : ∀ w ∈ targets, ∃ w' ∈ targets', d'.Reach isDep w w') (h : Known d nodes futs l targets) :
    Known d' nodes' futs' l targets' := by
  intro F n hn
  obtain ⟨y, G, hy, hG, hF, w, hw, hr⟩ := h F n hn
  obtain ⟨w', hw', hr'⟩ := ht w hw
  exact ⟨y, G, getElem?_of_prefix hl.nodes hy, getElem?_of_prefix hl.futs hG, hF, w', hw',
    (hl.reach y w (hlt w hw) hr).trans hr'⟩

/-- A frame moves on from `w` to `w'`. -/
theorem Known.step {l : NodeList} {w w' : Strand} (hl : Later d d' nodes nodes' futs futs') (hw : w < d.length)
    (hr : d'.Reach isDep w w') (h : Known d nodes futs l [w]) : Known d' nodes' futs' l [w'] := by
  apply h.mono hl
  · simpa using hw
  · simpa using hr

/-- More strands may be asked for. -/
theorem Known.weaken {l : NodeList} {targets targets' : List Strand} (h : Known d nodes futs l targets)
    (ht : ∀ w ∈ targets, w ∈ targets') : Known d nodes futs l targets' := by
  intro F n hn
  obtain ⟨y, G, hy, hG, hF, w, hw, hr⟩ := h F n hn
  exact ⟨y, G, hy, hG, hF, w, ht w hw, hr⟩

/-- What two lists know together. -/
theorem Known.union {l l₁ l₂ : NodeList} {targets : List Strand} (h₁ : Known d nodes futs l₁ targets)
    (h₂ : Known d nodes futs l₂ targets) (h : ∀ F n, l.Knows F n → l₁.Knows F n ∨ l₂.Knows F n) :
    Known d nodes futs l targets := by
  intro F n hn
  rcases h F n hn with hn | hn
  · exact h₁ F n hn
  · exact h₂ F n hn

/-- A new list knows nothing. -/
theorem known_new {targets : List Strand} : Known d nodes futs .new targets :=
  fun _ _ hn => absurd hn NodeList.not_knows_new

/-- The frame below is at its fork, or moves along. -/
theorem reach_outer {w w' : Strand} (h : d.Reach isDep w w') (k : Serial.Kind) :
    d.Reach isDep (k.outer w) (k.outer w') := by
  by_cases hk : k = .function
  · rw [hk]
    exact h
  · rw [Serial.Kind.outer_of_ne hk w' w]
    exact Dag.Reach.refl _

/-- All frames, when the top one moves on from `w` to `w'` and no list in use is written to. The frames below a
    forked one are asked for at its fork, which does not move; below a function they move with it. -/
theorem FramesKnown.mono (hd : d.WF) (hl : Later d d' nodes nodes' futs futs') {frames : List Serial.Frame} :
    ∀ {gs : List FrameData} {w w' : Strand}, FramesOk d w frames → w < d.length → d'.Reach isDep w w' →
      (∀ g ∈ gs, SameLists lists lists' g) → FramesKnown d nodes futs lists w frames gs →
      FramesKnown d' nodes' futs' lists' w' frames gs := by
  induction frames with
  | nil => exact fun _ _ _ _ _ => trivial
  | cons f rest ih =>
      intro gs w w' hfr hw hww' hsame h
      cases gs with
      | nil => trivial
      | cons g grest =>
          obtain ⟨hcur, hsync, hrest⟩ := h
          obtain ⟨hsamecur, hsamesync⟩ := hsame g List.mem_cons_self
          refine ⟨?_, ?_, ?_⟩
          · rw [hsamecur]
            exact hcur.step hl hw hww'
          · intro l hgl
            rw [hsamesync l hgl]
            apply (hsync l hgl).mono hl
            · intro w' hmem
              obtain ⟨c, hc, rfl⟩ := List.mem_map.mp hmem
              exact (hfr.1 c hc).lt
            · exact fun c hc => ⟨c, hc, Dag.Reach.refl c⟩
          · refine ih hfr.2.2.2 (Nat.lt_of_le_of_lt (hfr.2.2.1.le hd) hw) ?_
              (fun g hg => hsame g (List.mem_cons_of_mem _ hg)) hrest
            exact reach_outer hww' f.kind

/-- Nothing happens. -/
theorem Later.refl : Later d d nodes nodes futs futs :=
  ⟨List.prefix_rfl, List.prefix_rfl, fun _ _ _ hr => hr⟩

/-- A new list leaves the others where they are. -/
theorem getD_append_lt {lists more : List NodeList} {l : ListPtr} (h : l < lists.length) :
    (lists ++ more).getD l .new = lists.getD l .new := by
  rw [List.getD_eq_getElem?_getD, List.getD_eq_getElem?_getD, List.getElem?_append_left h]

/-- The list that has just been made. -/
theorem getD_append_length {lists : List NodeList} {l : NodeList} :
    (lists ++ [l]).getD lists.length .new = l := by
  simp

/-- Nor does it change what a frame holds. -/
theorem sameLists_append {lists more : List NodeList} {g : FrameData} (hcur : g.currentList < lists.length)
    (hsync : ∀ l, g.syncList = some l → l < lists.length) : SameLists lists (lists ++ more) g := by
  exact ⟨getD_append_lt hcur, fun l hl => getD_append_lt (hsync l hl)⟩

/-- The list that has been written to. -/
theorem getD_set_self {lists : List NodeList} {p : ListPtr} {x : NodeList} (hp : p < lists.length) :
    (lists.set p x).getD p .new = x := by
  rw [List.getD_eq_getElem?_getD, List.getElem?_set_self hp]
  rfl

/-- A list that is put where it was changes nothing. -/
theorem set_getD {lists : List NodeList} {p : ListPtr} (hp : p < lists.length) :
    lists.set p (lists.getD p .new) = lists := by
  rw [List.getD_eq_getElem?_getD, List.getElem?_eq_getElem hp]
  exact List.set_getElem_self hp

/-- The other lists. -/
theorem getD_set_ne {lists : List NodeList} {p l : ListPtr} {x : NodeList} (h : l ≠ p) :
    (lists.set p x).getD l .new = lists.getD l .new := by
  rw [List.getD_eq_getElem?_getD, List.getD_eq_getElem?_getD, List.getElem?_set_ne (Ne.symm h)]

/-- Writing to a list changes nothing for a frame that does not hold it. -/
theorem sameLists_set {lists : List NodeList} {p : ListPtr} {x : NodeList} {g : FrameData}
    (hcur : g.currentList ≠ p) (hsync : g.syncList ≠ some p) : SameLists lists (lists.set p x) g :=
  ⟨getD_set_ne hcur, fun _ hl => getD_set_ne fun hlp => hsync (hlp ▸ hl)⟩

/-- Nothing was made and nothing written. -/
theorem SameLists.refl (lists : List NodeList) (g : FrameData) : SameLists lists lists g := ⟨rfl, fun _ _ => rfl⟩

end Later

/-! ## Who holds which list

`Merge` is the only operation that writes to a list that is there already, and it writes to a sync list. The lemmas
here say that the events keep sync lists apart from all others; the only list at risk is the one that a child still
shares with its parent, and for that the code compares the pointers before it merges. -/

section Pointers

variable {n n' : Nat} {stack stack' : List FrameData} {handles handles' : List (Option ListPtr)}

/-- The sync lists are those that some frame has. -/
theorem mem_syncLists {l : ListPtr} : l ∈ syncLists stack ↔ ∃ g ∈ stack, g.syncList = some l :=
  List.mem_filterMap

/-- The one of the top frame comes first. -/
theorem syncLists_cons (g : FrameData) : syncLists (g :: stack) = g.syncList.toList ++ syncLists stack := by
  unfold syncLists
  cases h : g.syncList with
  | none => simp [h]
  | some l => simp [h]

/-- What is held, by the top frame or by others. -/
theorem held_cons {g : FrameData} {l : ListPtr} :
    Held (g :: stack) handles l ↔ g.currentList = l ∨ Held stack handles l := by
  unfold Held
  simp [or_assoc]

/-- No sync list is added, and who holds a list now held it before or holds one that is no sync list. -/
theorem PtrsOk.of (h : PtrsOk n stack handles) (hn : n ≤ n')
    (hsub : (syncLists stack').Sublist (syncLists stack))
    (hheld : ∀ l, Held stack' handles' l → Held stack handles l ∨ (l < n' ∧ l ∉ syncLists stack')) :
    PtrsOk n' stack' handles' := by
  refine ⟨h.nodup.sublist hsub, ?_, ?_, ?_⟩
  · intro l hl hh
    rcases hheld l hh with hh | hh
    · exact h.notHeld l (hsub.subset hl) hh
    · exact hh.2 hl
  · exact fun l hl => Nat.lt_of_lt_of_le (h.syncLt l (hsub.subset hl)) hn
  · intro l hh
    rcases hheld l hh with hh | hh
    · exact Nat.lt_of_lt_of_le (h.heldLt l hh) hn
    · exact hh.1

/-- The next list is not a sync list yet. -/
theorem PtrsOk.fresh (h : PtrsOk n stack handles) : n ∉ syncLists stack :=
  fun hmem => Nat.lt_irrefl _ (h.syncLt n hmem)

/-- Adding lists changes none that the stack has. -/
theorem PtrsOk.sameLists {lists : List NodeList} (h : PtrsOk lists.length stack handles)
    (more : List NodeList) : ∀ g ∈ stack, SameLists lists (lists ++ more) g := fun g hg =>
  sameLists_append (h.heldLt _ (Or.inl ⟨g, hg, rfl⟩)) fun l hl => h.syncLt l (mem_syncLists.mpr ⟨g, hg, hl⟩)

end Pointers

/-! ## One event

Each callback makes its lists from lists that were right, and the strands in the new list have to have a path to the
strand at which its frame is now. Where the callback starts a strand, this is one more edge; where it merges, the
strands of both lists have such an edge of their own. The search itself is not used: a list is right or not by what is
in it. -/

/-- The dag, the nodes and the futures after a strand with edges `es` has started. -/
theorem later_concat {s : State} {nodes nodes' : List OmNode} {futs futs' : List Nat} (hok : Ok s)
    (es : List (InEdge EdgeKind)) (hn : nodes <+: nodes') (hf : futs <+: futs') :
    Later s.dag (s.dag ++ [es]) nodes nodes' futs futs' :=
  ⟨hn, hf, fun _ _ hy hr => (Dag.reach_concat_old hok.wf hy).mpr hr⟩

section Steps

variable {s : State} {lists : List NodeList} {stack : List FrameData} {handles : List (Option ListPtr)}
  {nodes nodes' : List OmNode} {futs futs' : List Nat}

/-- New lists are added. -/
theorem ListsOk.append (h : ListsOk s lists stack handles nodes futs) (hok : Ok s) (more : List NodeList) :
    ListsOk s (lists ++ more) stack handles nodes futs := by
  refine ⟨?_, ?_, ?_⟩
  · apply h.ptrs.of (by simp) (List.Sublist.refl _)
    exact fun l hh => Or.inl hh
  · exact FramesKnown.mono hok.wf .refl hok.frames hok.cur_lt (Dag.Reach.refl _) (h.ptrs.sameLists more) h.frames
  · intro fut fin hfin l hl
    rw [getD_append_lt (h.ptrs.heldLt l (Or.inr (List.mem_of_getElem? hl)))]
    exact h.handles fut fin hfin l hl

/-- A spawn group is opened: the new sync list is empty, and no one else has it. An open group stays as it is. -/
theorem listsOk_openGroup {t : Tool} (h : ListsOk s t.lists t.stack t.handles nodes futs) (hl : Linked s t)
    (hok : Ok s) {f : Serial.Frame} {rest : List Serial.Frame} (hf : s.frames = f :: rest) {g : FrameData}
    {grest : List FrameData} (hg : t.stack = g :: grest) (c : OmNode) :
    ListsOk s (t.openGroup g c).1.lists ((t.openGroup g c).2 :: grest) t.handles nodes futs := by
  have hlk := hl.frames
  rw [hf, hg] at hlk
  unfold Tool.openGroup
  cases hsync : g.sync with
  | some n =>
      rw [hg] at h
      exact h
  | none =>
      have hnone : g.syncList = none := by
        have := hlk.1.syncList
        rw [← hlk.1.sync, hsync] at this
        simpa using this
      have happ := h.append hok [.new]
      rw [hg] at h happ
      have hold : syncLists (g :: grest) = syncLists grest := by
        rw [syncLists_cons, hnone]
        rfl
      have hframes := happ.frames
      rw [hf] at hframes
      show ListsOk s (t.lists ++ [.new]) ({ g with
        sync := some t.orders.fresh, syncList := some t.lists.length, oriList := some g.currentList } :: grest)
        _ _ _
      have hsyncs : syncLists ({ g with
          sync := some t.orders.fresh, syncList := some t.lists.length, oriList := some g.currentList } ::
          grest) = t.lists.length :: syncLists (g :: grest) := by
        rw [syncLists_cons, hold]
        rfl
      have hheld : ∀ {l : ListPtr}, Held ({ g with
          sync := some t.orders.fresh, syncList := some t.lists.length, oriList := some g.currentList } ::
            grest) t.handles l ↔ Held (g :: grest) t.handles l := by
        intro l
        rw [held_cons, held_cons]
      refine ⟨⟨?_, ?_, ?_, ?_⟩, ?_, happ.handles⟩
      · rw [hsyncs]
        exact List.nodup_cons.mpr ⟨h.ptrs.fresh, h.ptrs.nodup⟩
      · intro l hmem hh
        rw [hsyncs] at hmem
        rw [hheld] at hh
        rcases List.mem_cons.mp hmem with rfl | hmem
        · exact Nat.lt_irrefl _ (h.ptrs.heldLt _ hh)
        · exact h.ptrs.notHeld l hmem hh
      · intro l hmem
        rw [hsyncs] at hmem
        rcases List.mem_cons.mp hmem with rfl | hmem
        · simp
        · exact happ.ptrs.syncLt l hmem
      · exact fun l hh => happ.ptrs.heldLt l (hheld.mp hh)
      · rw [hf]
        refine ⟨hframes.1, ?_, hframes.2.2⟩
        rintro l ⟨⟩
        rw [getD_append_length]
        exact known_new

/-- A called function uses the list of its caller. -/
theorem listsOk_call {t : Tool} (h : ListsOk s t.lists t.stack t.handles nodes futs) {f : Serial.Frame}
    {rest : List Serial.Frame} (hf : s.frames = f :: rest) {g : FrameData} {grest : List FrameData}
    (hg : t.stack = g :: grest) : ListsOk { s with frames := .new .function :: f :: rest }
      (t.called g grest).lists (t.called g grest).stack (t.called g grest).handles nodes futs := by
  obtain ⟨hptrs, hframes, hhandles⟩ := h
  rw [hg] at hptrs hframes
  rw [hf] at hframes
  refine ⟨?_, ⟨hframes.1, ?_, hframes⟩, hhandles⟩
  · apply hptrs.of (Nat.le_refl _)
    · exact List.Sublist.refl _
    · intro l hh
      rcases held_cons.mp hh with hl | hh
      · exact Or.inl (held_cons.mpr (Or.inl hl))
      · exact Or.inl hh
  · rintro l ⟨⟩

/-- A function returns. It may have got a list of its own by a get or a create, and hands it to its caller, which
    goes on at the same strand. -/
theorem listsOk_ret {t : Tool} (h : ListsOk s t.lists t.stack t.handles nodes futs) {f g : Serial.Frame}
    {rest : List Serial.Frame} (hf : s.frames = f :: g :: rest) (hk : f.kind = .function) {a b : FrameData}
    {brest : List FrameData} (ha : t.stack = a :: b :: brest) : ListsOk { s with frames := g :: rest }
      (t.returned a b brest).lists (t.returned a b brest).stack (t.returned a b brest).handles nodes futs := by
  obtain ⟨hptrs, hframes, hhandles⟩ := h
  rw [ha] at hptrs hframes
  rw [hf] at hframes
  obtain ⟨hcur, -, hframes⟩ := hframes
  rw [hk] at hframes
  refine ⟨?_, ⟨hcur, hframes.2⟩, hhandles⟩
  apply hptrs.of (Nat.le_refl _)
  · rw [syncLists_cons]
    exact List.sublist_append_right _ _
  · intro l hh
    rcases held_cons.mp hh with hl | hh
    · exact Or.inl (held_cons.mpr (Or.inl hl))
    · exact Or.inl (held_cons.mpr (Or.inr (held_cons.mpr (Or.inr hh))))

/-- The list of a finished future stays right. -/
theorem known_finished (hok : Ok s) {d' : Dag EdgeKind} (hl : Later s.dag d' nodes nodes' futs futs')
    {fut : FutId} {fin : Serial.Finished} (hfin : s.futures[fut]? = some (some fin)) {l : NodeList}
    (h : Known s.dag nodes futs l [fin.last]) : Known d' nodes' futs' l [fin.last] := by
  exact h.step hl (hok.futures fut fin hfin).last_lt (Dag.Reach.refl fin.last)

/-- A fork at the current strand: `a` is the child's frame, `b'` the parent's. Both lists have to be right at the
    fork; the child is asked for at the strand that starts, which comes after it, and the parent at the fork itself,
    where it waits. -/
theorem listsOk_fork {b : FrameData} {grest : List FrameData}
    (h : ListsOk s lists (b :: grest) handles nodes futs) (hok : Ok s) {f : Serial.Frame}
    {rest : List Serial.Frame} (hf : s.frames = f :: rest) (kind : Serial.Kind)
    (hkind : kind.outer s.dag.length = s.cur) (unsynced : Bool)
    (hl : Later s.dag (s.dag ++ [[⟨s.cur, .sp⟩]]) nodes nodes' futs futs') (a b' : FrameData)
    (ha : a.syncList = none) (hb : b'.syncList = b.syncList)
    (hacur : Known s.dag nodes futs (lists.getD a.currentList .new) [s.cur])
    (hbcur : Known s.dag nodes futs (lists.getD b'.currentList .new) [s.cur])
    (hheld : ∀ l, a.currentList = l ∨ b'.currentList = l →
      b.currentList = l ∨ (l < lists.length ∧ l ∉ syncLists (b :: grest))) :
    PtrsOk lists.length (a :: b' :: grest) handles ∧
      FramesKnown (s.dag ++ [[⟨s.cur, .sp⟩]]) nodes' futs' lists s.dag.length
        (.new kind :: { f with unsynced := unsynced } :: rest) (a :: b' :: grest) := by
  have hsyncs : syncLists (a :: b' :: grest) = syncLists (b :: grest) := by
    rw [syncLists_cons, syncLists_cons, syncLists_cons, ha, hb]
    rfl
  constructor
  · apply h.ptrs.of (Nat.le_refl _)
    · rw [hsyncs]
    · intro l hh
      rw [hsyncs]
      rcases held_cons.mp hh with hl | hh
      · exact (hheld l (Or.inl hl)).imp_left fun hl => held_cons.mpr (Or.inl hl)
      · rcases held_cons.mp hh with hl | hh
        · exact (hheld l (Or.inr hl)).imp_left fun hl => held_cons.mpr (Or.inl hl)
        · exact Or.inl (held_cons.mpr (Or.inr hh))
  · have hframes := h.frames
    have hfr := hok.frames
    rw [hf] at hframes hfr
    have hstay := FramesKnown.mono hok.wf hl hfr hok.cur_lt (Dag.Reach.refl _)
      (fun g _ => SameLists.refl lists g) hframes
    have hnew : Dag.Reach (s.dag ++ [[⟨s.cur, .sp⟩]]) isDep s.cur s.dag.length :=
      (Serial.reach_new_of_sp hok.wf (Serial.single_lt hok.cur_lt) (List.mem_singleton.mpr rfl)).mono
        Serial.isDep_of_isSp
    refine ⟨hacur.step hl hok.cur_lt hnew, ?_, ?_⟩
    · rw [ha]
      rintro l ⟨⟩
    · rw [kind_new, hkind]
      refine ⟨hbcur.step hl hok.cur_lt (Dag.Reach.refl s.cur), ?_, hstay.2.2⟩
      rw [hb]
      exact hstay.2.1

/-- A spawned child starts with the list of its parent, and its own sync list is still to come. -/
theorem listsOk_spawn {t : Tool} (h : ListsOk s t.lists t.stack t.handles nodes futs) (hl : Linked s t)
    (hok : Ok s) (hnodes : nodes <+: nodes') (hfuts : futs <+: futs') {f : Serial.Frame}
    {rest : List Serial.Frame} (hf : s.frames = f :: rest) {g : FrameData} {grest : List FrameData}
    (hg : t.stack = g :: grest) : ListsOk { s.start [⟨s.cur, .sp⟩] with
        frames := .new (.spawned s.cur) :: { f with unsynced := true } :: rest }
      (t.detached g grest t.current.node).lists (t.detached g grest t.current.node).stack
      (t.detached g grest t.current.node).handles nodes' futs' := by
  have hopen := listsOk_openGroup h hl hok hf hg t.current.node
  have hlater := later_concat hok [⟨s.cur, .sp⟩] hnodes hfuts
  obtain ⟨-, -, -, hhandles, -⟩ := t.openGroup_fst g t.current.node
  have hcur := hopen.frames
  rw [hf] at hcur
  obtain ⟨hptrs, hframes⟩ := listsOk_fork hopen hok hf (.spawned s.cur) rfl true hlater
    ⟨some (t.openGroup g t.current.node).1.orders.fresh, none, none,
      (t.openGroup g t.current.node).2.currentList, none, none, true,
      (t.openGroup g t.current.node).2.futureId⟩
    { (t.openGroup g t.current.node).2 with
      current := none
      cont := some ((t.openGroup g t.current.node).1.orders.fresh + 1) }
    rfl rfl hcur.1 hcur.1 (fun l hl => Or.inl (hl.elim id id))
  refine ⟨?_, hframes, ?_⟩
  · show PtrsOk _ _ (t.openGroup g t.current.node).1.handles
    rw [hhandles]
    exact hptrs
  · intro fut fin hfin l hh
    have hh' : t.handles[fut]? = some (some l) := by rw [← hhandles]; exact hh
    exact known_finished hok hlater hfin (hopen.handles fut fin hfin l hh')

theorem getElem?_set_some {α : Type} {l : List α} {i : Nat} {a b : α} (h : (l.set i a)[i]? = some b) :
    i < l.length ∧ a = b := by
  have hi : i < l.length := by simpa using (List.getElem?_eq_some_iff.mp h).1
  rw [List.getElem?_set_self hi] at h
  exact ⟨hi, Option.some.inj h⟩

theorem getElem?_append_none {α : Type} {l : List (Option α)} {i : Nat} {a : α} :
    (l ++ [none])[i]? = some (some a) ↔ l[i]? = some (some a) := by
  rcases Nat.lt_trichotomy i l.length with hi | rfl | hi
  · rw [List.getElem?_append_left hi]
  · simp
  · rw [List.getElem?_eq_none (by simp; omega), List.getElem?_eq_none (Nat.le_of_lt hi)]

/-- The list of a new future holds what its creator knows, and the create. -/
theorem known_createdList {t : Tool} {d : Dag EdgeKind} {l : NodeList} {targets : List Strand} {c : OmNode}
    {futureId : Nat} (hl : Known d nodes futs l targets)
    (hc : ∃ y G, nodes[y]? = some c ∧ futs[y]? = some G ∧ futureId = G % 2 ^ 32 ∧
      ∃ w ∈ targets, d.Reach isDep y w) :
    Known d nodes futs (t.createdList l ⟨c, c⟩ futureId) targets := by
  intro F n hn
  unfold Tool.createdList at hn
  split at hn
  · rcases NodeList.knows_insert rfl hn with hn | ⟨rfl, rfl⟩
    · exact hl F n hn
    · exact hc
  · obtain ⟨rfl, rfl⟩ := NodeList.knows_single rfl hn
    exact hc

/-- A fork whose child gets the new list `x`; the parent keeps its list or gets `x` too. -/
theorem listsOk_forkList {b : FrameData} {grest : List FrameData}
    (h : ListsOk s lists (b :: grest) handles nodes futs) (hok : Ok s) {f : Serial.Frame}
    {rest : List Serial.Frame} (hf : s.frames = f :: rest) (kind : Serial.Kind)
    (hkind : kind.outer s.dag.length = s.cur) (unsynced : Bool)
    (hl : Later s.dag (s.dag ++ [[⟨s.cur, .sp⟩]]) nodes nodes' futs futs') {x : NodeList}
    (hx : Known s.dag nodes futs x [s.cur]) (a b' : FrameData) (ha : a.syncList = none)
    (hb : b'.syncList = b.syncList) (hacur : a.currentList = lists.length)
    (hbcur : b'.currentList = b.currentList ∨ b'.currentList = lists.length) :
    PtrsOk (lists ++ [x]).length (a :: b' :: grest) handles ∧
      FramesKnown (s.dag ++ [[⟨s.cur, .sp⟩]]) nodes' futs' (lists ++ [x]) s.dag.length
        (.new kind :: { f with unsynced := unsynced } :: rest) (a :: b' :: grest) := by
  have happ := h.append hok [x]
  have hframes := happ.frames
  rw [hf] at hframes
  have hnew : Known s.dag nodes futs ((lists ++ [x]).getD lists.length .new) [s.cur] := by
    rw [getD_append_length]
    exact hx
  have hfresh : lists.length < (lists ++ [x]).length ∧ lists.length ∉ syncLists (b :: grest) :=
    ⟨by simp, h.ptrs.fresh⟩
  apply listsOk_fork happ hok hf kind hkind unsynced hl a b' ha hb
  · rw [hacur]
    exact hnew
  · rcases hbcur with hbcur | hbcur
    · rw [hbcur]
      exact hframes.1
    · rw [hbcur]
      exact hnew
  · rintro l (rfl | rfl)
    · exact Or.inr (hacur ▸ hfresh)
    · rcases hbcur with hbcur | hbcur
      · exact Or.inl hbcur.symm
      · exact Or.inr (hbcur ▸ hfresh)

/-- `CilkFutureCreate` makes a list for the new future: what the creator knows, and the creator's strand under its
    own future. The creator's frame gets that list as well, when the push has left the frame where it was; this is
    right too, since the list says nothing of the new future. -/
theorem listsOk_create {t : Tool} (h : ListsOk s t.lists t.stack t.handles nodes futs) (hsp : SpOk s t nodes)
    (hown : OwnFuture s futs) (hnodes : nodes <+: nodes') (hfuts : futs <+: futs') {f : Serial.Frame}
    {rest : List Serial.Frame} (hf : s.frames = f :: rest) {g : FrameData} {grest : List FrameData}
    (hg : t.stack = g :: grest) (unsynced kept : Bool) : ListsOk { s.start [⟨s.cur, .sp⟩] with
        frames := .new (.future s.futures.length s.cur) :: { f with unsynced := unsynced } :: rest
        futures := s.futures ++ [none] }
      (t.created g grest t.current.node kept).lists (t.created g grest t.current.node kept).stack
      (t.created g grest t.current.node kept).handles nodes' futs' := by
  have hok := hsp.ok
  have hopen := listsOk_openGroup h hsp.linked hok hf hg t.current.node
  have hlater := later_concat hok [⟨s.cur, .sp⟩] hnodes hfuts
  obtain ⟨-, -, -, hhandles, -⟩ := t.openGroup_fst g t.current.node
  have hlk := hsp.linked.frames
  have hcur := hopen.frames
  rw [hf] at hcur hlk
  rw [hg] at hlk
  -- the create itself, under the id of the creator's future
  have hself : ∃ y G, nodes[y]? = some t.current.node ∧ futs[y]? = some G ∧ g.futureId = G % 2 ^ 32 ∧
      ∃ w ∈ [s.cur], s.dag.Reach isDep y w := by
    refine ⟨s.cur, futureOf s.frames, hsp.node, hown.cur, ?_, s.cur, by simp, Dag.Reach.refl _⟩
    rw [hf]
    exact hlk.1.futureId
  obtain ⟨hptrs, hframes⟩ := listsOk_forkList hopen hok hf (.future s.futures.length s.cur) rfl unsynced hlater
    (known_createdList (t := t.detached g grest t.current.node) hcur.1 hself)
    ⟨some (t.openGroup g t.current.node).1.orders.fresh, none, none,
      (t.detached g grest t.current.node).lists.length, none, none, true,
      (t.detached g grest t.current.node).nextFutureId⟩
    (if kept then { (t.openGroup g t.current.node).2 with
        current := none
        cont := some ((t.openGroup g t.current.node).1.orders.fresh + 1)
        currentList := (t.detached g grest t.current.node).lists.length }
      else { (t.openGroup g t.current.node).2 with
        current := none
        cont := some ((t.openGroup g t.current.node).1.orders.fresh + 1) })
    rfl (by cases kept <;> rfl) rfl (by cases kept <;> simp [Tool.detached])
  refine ⟨?_, hframes, ?_⟩
  · show PtrsOk _ _ ((t.openGroup g t.current.node).1.handles ++ [none])
    rw [hhandles]
    apply hptrs.of (Nat.le_refl _) (List.Sublist.refl _)
    rintro l (hh | hh)
    · exact Or.inl (Or.inl hh)
    · exact Or.inl (Or.inr (by simpa using hh))
  · intro fut fin hfin l hh
    have hold : t.handles[fut]? = some (some l) := by
      rw [← hhandles]
      exact getElem?_append_none.mp hh
    have hfin := getElem?_append_none.mp hfin
    exact known_finished hok hlater hfin ((hopen.append hok _).handles fut fin hfin l hold)

/-- `Merge` into the sync list `p` of a frame changes no other list in use. -/
theorem PtrsOk.merge {n : Nat} (h : PtrsOk n stack handles) {b : FrameData} (above : List FrameData)
    {brest : List FrameData} (hstack : stack = above ++ b :: brest) {p : ListPtr} (hp : b.syncList = some p) :
    p < n ∧ b.currentList ≠ p ∧ (∀ g ∈ above, g.currentList ≠ p) ∧
      (∀ l, some l ∈ handles → l ≠ p) ∧ ∀ (lists : List NodeList) (x : NodeList), ∀ g ∈ brest,
        SameLists lists (lists.set p x) g := by
  subst hstack
  have hmem : p ∈ syncLists (above ++ b :: brest) :=
    mem_syncLists.mpr ⟨b, List.mem_append_right _ List.mem_cons_self, hp⟩
  have hne : ∀ g ∈ above ++ b :: brest, g.currentList ≠ p := by
    rintro g hg rfl
    exact h.notHeld _ hmem (Or.inl ⟨g, hg, rfl⟩)
  refine ⟨h.syncLt p hmem, hne b (by simp), fun g hg => hne g (List.mem_append_left _ hg), ?_, ?_⟩
  · rintro l hl rfl
    exact h.notHeld _ hmem (Or.inr hl)
  · intro lists x g hg
    refine sameLists_set (hne g (by simp [hg])) ?_
    intro hgp
    have hnodup := h.nodup
    rw [syncLists, List.filterMap_append] at hnodup
    have htail : (syncLists (b :: brest)).Nodup := (List.nodup_append.mp hnodup).2.1
    rw [syncLists_cons, hp] at htail
    exact (List.nodup_cons.mp htail).1 (mem_syncLists.mpr ⟨g, hg, hgp⟩)

/-- A child's list is merged into the sync list of the parent, unless the child has the parent's list still. What
    the child knew has paths to its last strand, and with its return that strand becomes one of those that the sync
    list may be asked for. -/
theorem listsOk_spawnRet {t : Tool} (h : ListsOk s t.lists t.stack t.handles nodes futs) (hl : Linked s t)
    (hst : StackOk s) (hok : Ok s) (hnodes : nodes <+: nodes') (hfuts : futs <+: futs') {f g : Serial.Frame}
    {rest : List Serial.Frame} {fork : Strand} (hf : s.frames = f :: g :: rest)
    (hk : f.kind = .spawned fork) {a b : FrameData} {brest : List FrameData}
    (ha : t.stack = a :: b :: brest) (n : OmNode) : ListsOk { s.start [⟨fork, .sp⟩] with
        frames := { g with children := ⟨fork, s.cur⟩ :: g.children } :: rest }
      (t.joinedLists a b) ({ b with current := some n, cont := none } :: brest) t.handles nodes' futs' := by
  obtain ⟨hptrs, hframes, hhandles⟩ := h
  have hlk := hl.frames
  have hpar := hst.parents
  have hfork : f.kind.outer s.cur = fork := by
    rw [hk]
    rfl
  obtain ⟨-, hlt, hfr⟩ := hok.returning hf
  rw [hfork] at hlt hfr
  have hlater := later_concat hok [⟨fork, .sp⟩] hnodes hfuts
  rw [hf, ha] at hlk
  rw [hf] at hpar hframes
  rw [ha] at hframes hptrs
  -- the parent waits for a spawned child, so it has a sync list
  have hu : g.unsynced = true := (List.isChain_cons_cons.mp hpar).1 fork hk
  obtain ⟨p, hp⟩ := Option.isSome_iff_exists.mp (hlk.2.1.syncList.trans hu)
  obtain ⟨hcur, -, hframes⟩ := hframes
  rw [hfork] at hframes
  obtain ⟨hbcur, hbsync, hrest⟩ := hframes
  obtain ⟨hplt, hbne, hane, hhne, hsame⟩ := hptrs.merge [a] rfl hp
  have hmove : Dag.Reach (s.dag ++ [[⟨fork, .sp⟩]]) isDep fork s.dag.length :=
    (Serial.reach_new_of_sp hok.wf (Serial.single_lt hlt) (List.mem_singleton.mpr rfl)).mono
      Serial.isDep_of_isSp
  obtain ⟨x, hx, hknown⟩ : ∃ x, t.joinedLists a b = t.lists.set p x ∧
      Known s.dag nodes futs x (s.cur :: g.children.map Serial.Child.last) := by
    have hsync := (hbsync p hp).weaken fun w hw => List.mem_cons_of_mem s.cur hw
    unfold Tool.joinedLists
    split
    · refine ⟨_, by rw [hp]; rfl, ?_⟩
      exact Known.union hsync (hcur.weaken (by simp)) fun F n hn => NodeList.knows_merge hn
    · exact ⟨t.lists.getD p .new, (set_getD hplt).symm, hsync⟩
  have hlast : ∀ w ∈ s.cur :: g.children.map Serial.Child.last, w < s.dag.length := by
    intro w hw
    rcases List.mem_cons.mp hw with rfl | hw
    · exact hok.cur_lt
    · obtain ⟨c, hc, rfl⟩ := List.mem_map.mp hw
      exact (hfr.1 c hc).lt
  rw [hx]
  refine ⟨?_, ⟨?_, ?_, ?_⟩, ?_⟩
  · apply hptrs.of (by simp)
    · rw [syncLists_cons, syncLists_cons, syncLists_cons]
      exact List.sublist_append_right _ _
    · intro l hh
      rcases held_cons.mp hh with hl | hh
      · exact Or.inl (held_cons.mpr (Or.inr (held_cons.mpr (Or.inl hl))))
      · exact Or.inl (held_cons.mpr (Or.inr (held_cons.mpr (Or.inr hh))))
  · show Known _ _ _ ((t.lists.set p x).getD b.currentList .new) [s.dag.length]
    rw [getD_set_ne hbne]
    exact hbcur.step hlater hlt hmove
  · intro l hgl
    obtain rfl := Option.some.inj (hp.symm.trans hgl)
    rw [getD_set_self hplt]
    exact hknown.mono hlater hlast fun w hw => ⟨w, hw, Dag.Reach.refl w⟩
  · exact FramesKnown.mono hok.wf hlater hfr.2.2.2 (Nat.lt_of_le_of_lt (hfr.2.2.1.le hok.wf) hlt)
      (reach_outer hmove g.kind) (hsame t.lists x) hrest
  · intro fut fin hfin l hh
    rw [getD_set_ne (hhne l (List.mem_of_getElem? hh))]
    exact known_finished hok hlater hfin (hhandles fut fin hfin l hh)

/-- `CilkFutureFinish` leaves a list with what the future knew, and its last strand. The creator goes on with the
    list it had, for it does not come after the future yet. -/
theorem listsOk_finish {t : Tool} (h : ListsOk s t.lists t.stack t.handles nodes futs) (hsp : SpOk s t nodes)
    (hown : OwnFuture s futs) (hnodes : nodes <+: nodes') (hfuts : futs <+: futs') {f g : Serial.Frame}
    {rest : List Serial.Frame} {fork : Strand} {fut : FutId} (hf : s.frames = f :: g :: rest)
    (hk : f.kind = .future fut fork) {a b : FrameData} {brest : List FrameData}
    (ha : t.stack = a :: b :: brest) (n : OmNode) : ListsOk { s.start [⟨fork, .sp⟩] with
        frames := { g with created := ⟨fork, s.cur⟩ :: g.created } :: rest
        futures := s.futures.set fut (some ⟨fork, s.cur, s.dag.length⟩) }
      (t.finished a b brest n fut).lists (t.finished a b brest n fut).stack
      (t.finished a b brest n fut).handles nodes' futs' := by
  have hok := hsp.ok
  have hfork : f.kind.outer s.cur = fork := by
    rw [hk]
    rfl
  obtain ⟨-, hlt, hfr⟩ := hok.returning hf
  rw [hfork] at hlt hfr
  have hlater := later_concat hok [⟨fork, .sp⟩] hnodes hfuts
  have hlk := hsp.linked.frames
  rw [hf, ha] at hlk
  have hmove : Dag.Reach (s.dag ++ [[⟨fork, .sp⟩]]) isDep fork s.dag.length :=
    (Serial.reach_new_of_sp hok.wf (Serial.single_lt hlt) (List.mem_singleton.mpr rfl)).mono
      Serial.isDep_of_isSp
  obtain ⟨hptrs, hframes, hhandles⟩ := h
  rw [hf] at hframes
  rw [ha] at hptrs hframes
  obtain ⟨hcur, -, hframes⟩ := hframes
  rw [hfork] at hframes
  -- the list of the future: what its last strand knows, and that strand
  have hret : Known s.dag nodes futs (t.finishedList a) [s.cur] := by
    intro F m hm
    rcases NodeList.knows_insert rfl hm with hm | ⟨rfl, rfl⟩
    · exact hcur F m hm
    · refine ⟨s.cur, futureOf s.frames, hsp.node, hown.cur, ?_, s.cur, by simp, Dag.Reach.refl _⟩
      rw [hf]
      exact hlk.1.futureId
  have hbelow : ∀ g' ∈ b :: brest, SameLists t.lists (t.lists ++ [t.finishedList a]) g' := fun g' hg' =>
    hptrs.sameLists _ g' (List.mem_cons_of_mem _ hg')
  refine ⟨?_, ?_, ?_⟩
  · show PtrsOk (t.lists ++ [_]).length ({ b with current := some n, cont := none } :: brest)
      (t.handles.set fut (some t.lists.length))
    apply hptrs.of (by simp)
    · rw [syncLists_cons a]
      exact List.sublist_append_right _ _
    · rintro l (hh | hh)
      · exact Or.inl (held_cons.mpr (Or.inr (by
          rcases held_cons.mp (Or.inl hh) with hl | hh
          · exact held_cons.mpr (Or.inl hl)
          · exact held_cons.mpr (Or.inr hh))))
      · rcases List.mem_or_eq_of_mem_set hh with hh | hh
        · exact Or.inl (Or.inr hh)
        · obtain rfl := Option.some.inj hh
          refine Or.inr ⟨by simp, ?_⟩
          intro hmem
          apply hptrs.fresh
          rw [syncLists_cons a]
          exact List.mem_append_right _ hmem
  · obtain ⟨hbcur, hbsync, hrest⟩ := FramesKnown.mono hok.wf hlater hfr hlt hmove hbelow hframes
    exact ⟨hbcur, hbsync, hrest⟩
  · intro fut' fin hfin l hh
    by_cases hfut : fut' = fut
    · subst hfut
      obtain ⟨-, hfin⟩ := getElem?_set_some hfin
      obtain ⟨-, hh⟩ := getElem?_set_some hh
      obtain rfl := Option.some.inj hfin
      obtain rfl := Option.some.inj hh
      show Known _ _ _ ((t.lists ++ [t.finishedList a]).getD t.lists.length .new) [s.cur]
      rw [getD_append_length]
      exact hret.step hlater hok.cur_lt (Dag.Reach.refl s.cur)
    · have hfin : s.futures[fut']? = some (some fin) := by
        rw [← hfin]
        exact (List.getElem?_set_ne (Ne.symm hfut)).symm
      have hh : t.handles[fut']? = some (some l) := by
        rw [← hh]
        exact (List.getElem?_set_ne (Ne.symm hfut)).symm
      show Known _ _ _ ((t.lists ++ [t.finishedList a]).getD l .new) [fin.last]
      rw [getD_append_lt (hptrs.heldLt l (Or.inr (List.mem_of_getElem? hh)))]
      exact known_finished hok hlater hfin (hhandles fut' fin hfin l hh)

/-- After a sync the frame has what it knew itself, and what its children knew. Its own list is merged into the sync
    list first, if it is not the list that the group began with; all of it has paths to the strand after the sync,
    since the edges of the sync come from the frame and from its children. -/
theorem listsOk_sync {t : Tool} (h : ListsOk s t.lists t.stack t.handles nodes futs) (hl : Linked s t)
    (hok : Ok s) (hnodes : nodes <+: nodes') (hfuts : futs <+: futs') {f : Serial.Frame}
    {rest : List Serial.Frame} (hf : s.frames = f :: rest) (hu : f.unsynced = true)
    {g : FrameData} {grest : List FrameData} (hg : t.stack = g :: grest) (n : OmNode) :
    ListsOk { s.start (Serial.syncEdges s.cur f) with frames := .new f.kind :: rest }
      (t.synced g grest n).lists (t.synced g grest n).stack t.handles nodes' futs' := by
  have hes := Serial.syncEdges_lt hok hf
  have hlater := later_concat hok (Serial.syncEdges s.cur f) hnodes hfuts
  have hlk := hl.frames
  have hfr := hok.frames
  obtain ⟨hptrs, hframes, hhandles⟩ := h
  rw [hf, hg] at hlk
  rw [hf] at hframes hfr
  rw [hg] at hptrs hframes
  obtain ⟨p, hp⟩ := Option.isSome_iff_exists.mp (hlk.1.syncList.trans hu)
  obtain ⟨hcur, hsync, hrest⟩ := hframes
  obtain ⟨hplt, hgne, -, hhne, hsame⟩ := hptrs.merge [] rfl hp
  -- the strands that the sync joins
  have htargets : ∀ w ∈ s.cur :: f.children.map Serial.Child.last,
      w < s.dag.length ∧ Dag.Reach (s.dag ++ [Serial.syncEdges s.cur f]) isDep w s.dag.length := by
    intro w hw
    have hmem : ⟨w, .sp⟩ ∈ Serial.syncEdges s.cur f := by
      rcases List.mem_cons.mp hw with rfl | hw
      · simp [Serial.syncEdges]
      · obtain ⟨c, hc, rfl⟩ := List.mem_map.mp hw
        simp only [Serial.syncEdges, List.mem_append, List.mem_cons, List.mem_map]
        exact Or.inl (Or.inr ⟨c, hc, rfl⟩)
    exact ⟨hes _ hmem, (Serial.reach_new_of_sp hok.wf hes hmem).mono Serial.isDep_of_isSp⟩
  obtain ⟨x, hx, hknown⟩ : ∃ x, t.syncedLists g = t.lists.set p x ∧
      Known s.dag nodes futs x (s.cur :: f.children.map Serial.Child.last) := by
    have hsync := (hsync p hp).weaken fun w hw => List.mem_cons_of_mem s.cur hw
    unfold Tool.syncedLists
    split
    · refine ⟨_, by rw [hp]; rfl, ?_⟩
      exact Known.union hsync (hcur.weaken (by simp)) fun F n hn => NodeList.knows_merge hn
    · exact ⟨t.lists.getD p .new, (set_getD hplt).symm, hsync⟩
  have hsynced : Known (s.dag ++ [Serial.syncEdges s.cur f]) nodes' futs' x [s.dag.length] :=
    hknown.mono hlater (fun w hw => (htargets w hw).1) fun w hw => ⟨s.dag.length, by simp, (htargets w hw).2⟩
  have hnew := (htargets s.cur List.mem_cons_self).2
  show ListsOk _ (t.syncedLists g) ({ g with
    current := some n, sync := none, currentList := Tool.syncedList (t.syncedLists g) g, syncList := none } ::
      grest) _ _ _
  have hheldp : Tool.syncedList (t.syncedLists g) g = g.currentList ∨
      Tool.syncedList (t.syncedLists g) g = p := by
    unfold Tool.syncedList
    split
    · exact Or.inl rfl
    · rw [hp]
      exact Or.inr rfl
  rw [hx] at hheldp ⊢
  refine ⟨?_, ⟨?_, ?_, ?_⟩, ?_⟩
  · have hnotMem : p ∉ syncLists grest := by
      have hnodup := hptrs.nodup
      rw [syncLists_cons, hp] at hnodup
      exact (List.nodup_cons.mp hnodup).1
    apply hptrs.of (by simp)
    · rw [syncLists_cons g]
      exact List.sublist_append_right _ _
    · intro l hh
      rcases held_cons.mp hh with hl | hh
      · rcases hheldp with hheldp | hheldp
        · exact Or.inl (held_cons.mpr (Or.inl (hheldp.symm.trans hl)))
        · obtain rfl : p = l := hheldp.symm.trans hl
          refine Or.inr ⟨by simpa using hplt, hnotMem⟩
      · exact Or.inl (held_cons.mpr (Or.inr hh))
  · rcases hheldp with hheldp | hheldp
    · show Known _ _ _ ((t.lists.set p x).getD (Tool.syncedList (t.lists.set p x) g) .new) [s.dag.length]
      rw [hheldp, getD_set_ne hgne]
      exact hcur.step hlater hok.cur_lt hnew
    · show Known _ _ _ ((t.lists.set p x).getD (Tool.syncedList (t.lists.set p x) g) .new) [s.dag.length]
      rw [hheldp, getD_set_self hplt]
      exact hsynced
  · rintro l ⟨⟩
  · rw [kind_new]
    exact FramesKnown.mono hok.wf hlater hfr.2.2.2 (Nat.lt_of_le_of_lt (hfr.2.2.1.le hok.wf) hok.cur_lt)
      (reach_outer hnew f.kind) (hsame t.lists x) hrest
  · intro fut fin hfin l hh
    rw [getD_set_ne (hhne l (List.mem_of_getElem? hh))]
    exact known_finished hok hlater hfin (hhandles fut fin hfin l hh)

/-- `CilkFutureGet` makes a list of what the frame knows and of what the future has left. Both have paths to the
    strand that the get starts, by the edge from the frame and by the one from the future. -/
theorem listsOk_get {t : Tool} (h : ListsOk s t.lists t.stack t.handles nodes futs)
    (hok : Ok s) (hnodes : nodes <+: nodes') (hfuts : futs <+: futs') {f : Serial.Frame}
    {rest : List Serial.Frame} (hf : s.frames = f :: rest) {fut : FutId} {fin : Serial.Finished}
    (hfin : s.futures[fut]? = some (some fin)) {g : FrameData} {grest : List FrameData}
    (hg : t.stack = g :: grest) {l : ListPtr} (hh : t.handles[fut]? = some (some l)) :
    ListsOk (s.start [⟨s.cur, .sp⟩, ⟨fin.last, .get⟩]) (t.got g grest l).lists (t.got g grest l).stack
      t.handles nodes' futs' := by
  have hes : ∀ e ∈ ([⟨s.cur, .sp⟩, ⟨fin.last, .get⟩] : List (InEdge EdgeKind)), e.src < s.dag.length := by
    simp [hok.cur_lt, (hok.futures fut fin hfin).last_lt]
  have hlater := later_concat hok [⟨s.cur, .sp⟩, ⟨fin.last, .get⟩] hnodes hfuts
  obtain ⟨hptrs, hframes, hhandles⟩ := h
  have hfr := hok.frames
  rw [hf] at hframes hfr
  rw [hg] at hptrs hframes
  have hedge : ∀ e ∈ ([⟨s.cur, .sp⟩, ⟨fin.last, .get⟩] : List (InEdge EdgeKind)), isDep e.kind →
      Dag.Reach (s.dag ++ [[⟨s.cur, .sp⟩, ⟨fin.last, .get⟩]]) isDep e.src s.dag.length := fun e he hk =>
    (Dag.reach_concat_new hok.wf hes).mpr (Or.inr ⟨e, he, hk, Dag.Reach.refl _⟩)
  have hcurnew := hedge ⟨s.cur, .sp⟩ (by simp) (by simp [isDep])
  have hlastnew := hedge ⟨fin.last, .get⟩ (by simp) (by simp [isDep])
  have hunion : Known (s.dag ++ [[⟨s.cur, .sp⟩, ⟨fin.last, .get⟩]]) nodes' futs'
      ((t.lists.getD g.currentList .new).union t.precE t.precH (t.lists.getD l .new)) [s.dag.length] := by
    refine Known.union (hframes.1.step hlater hok.cur_lt hcurnew) ?_ fun F n hn => NodeList.knows_union hn
    exact (hhandles fut fin hfin l hh).step hlater (hok.futures fut fin hfin).last_lt hlastnew
  obtain ⟨-, hsync, hrest⟩ := FramesKnown.mono hok.wf hlater hfr hok.cur_lt hcurnew
    (hptrs.sameLists [(t.lists.getD g.currentList .new).union t.precE t.precH (t.lists.getD l .new)]) hframes
  refine ⟨?_, ?_, ?_⟩
  · show PtrsOk (t.lists ++ [_]).length ({ g with currentList := t.lists.length } :: grest) t.handles
    apply hptrs.of (by simp)
    · exact List.Sublist.refl _
    · intro l' hh
      rcases held_cons.mp hh with rfl | hh
      · exact Or.inr ⟨by simp, hptrs.fresh⟩
      · exact Or.inl (held_cons.mpr (Or.inr hh))
  · show FramesKnown _ _ _ _ s.dag.length s.frames _
    rw [hf]
    refine ⟨?_, hsync, hrest⟩
    show Known _ _ _ ((t.lists ++ [_]).getD t.lists.length .new) _
    rw [getD_append_length]
    exact hunion
  · intro fut' fin' hfin' l' hh'
    show Known _ _ _ ((t.lists ++ [_]).getD l' .new) _
    rw [getD_append_lt (hptrs.heldLt l' (Or.inr (List.mem_of_getElem? hh')))]
    exact known_finished hok hlater hfin' (hhandles fut' fin' hfin' l' hh')

/-- The nodes and futures of later strands do not matter. -/
theorem ListsOk.grow (h : ListsOk s lists stack handles nodes futs) (hok : Ok s) (hnodes : nodes <+: nodes')
    (hfuts : futs <+: futs') : ListsOk s lists stack handles nodes' futs' := by
  have hlater : Later s.dag s.dag nodes nodes' futs futs' := ⟨hnodes, hfuts, fun _ _ _ hr => hr⟩
  refine ⟨h.ptrs, ?_, ?_⟩
  · exact FramesKnown.mono hok.wf hlater hok.frames hok.cur_lt (Dag.Reach.refl _)
      (fun g _ => SameLists.refl lists g) h.frames
  · intro fut fin hfin l hh
    exact known_finished hok hlater hfin (h.handles fut fin hfin l hh)

/-- **One event.** By cases on the event; the tool's side is what `Linked` says that the callback does. -/
theorem listsOk_step {s' : State} {t t' : Tool} {e : Event}
    (h : ListsOk s t.lists t.stack t.handles nodes futs) (hsp : SpOk s t nodes) (hown : OwnFuture s futs)
    (hnodes : nodes <+: nodes') (hfuts : futs <+: futs') (hs : Step rules s e s') (ht : t.step e = some t') :
    ListsOk s' t'.lists t'.stack t'.handles nodes' futs' := by
  have hl := hsp.linked
  have hok := hsp.ok
  have hgrow := h.grow hok hnodes hfuts
  cases hs with
  | call hf =>
      obtain ⟨g, grest, hg, hstep, -⟩ := linked_call hl hf
      obtain rfl := Option.some.inj (hstep.symm.trans ht)
      exact listsOk_call hgrow hf hg
  | ret hf hk _ =>
      obtain ⟨a, b, brest, ha, hstep, -⟩ := linked_ret hl hf hk
      obtain rfl := Option.some.inj (hstep.symm.trans ht)
      exact listsOk_ret hgrow hf hk ha
  | spawn hf hk =>
      obtain ⟨g, grest, hg, -, hstep, -⟩ := linked_spawn hl hf (function_of_canSpawn hk)
      obtain rfl := Option.some.inj (hstep.symm.trans ht)
      exact listsOk_spawn h hl hok hnodes hfuts hf hg
  | spawnRet hf hk _ =>
      obtain ⟨a, b, brest, n, ha, -, hstep, -⟩ := linked_spawnRet hl hsp.stack hf hk
      obtain rfl := Option.some.inj (hstep.symm.trans ht)
      exact listsOk_spawnRet h hl hsp.stack hok hnodes hfuts hf hk ha n
  | sync hf hk hu =>
      obtain ⟨g, grest, n, hg, -, hstep, -⟩ := linked_sync hl hf (function_of_canSpawn hk) hu
      obtain rfl := Option.some.inj (hstep.symm.trans ht)
      exact listsOk_sync h hl hok hnodes hfuts hf hu hg n
  | synced hf hk hu =>
      obtain rfl := Option.some.inj ((linked_synced hl hf (function_of_canSpawn hk) hu).symm.trans ht)
      exact hgrow
  | create hf hk =>
      obtain ⟨g, grest, hg, -, kept, hstep, -⟩ := linked_create hl hf (function_of_canSpawn hk)
      obtain rfl := Option.some.inj (hstep.symm.trans ht)
      exact listsOk_create h hsp hown hnodes hfuts hf hg _ kept
  | finish hf hk _ =>
      obtain ⟨a, b, brest, n, ha, -, hstep, -⟩ := linked_finish hl hsp.stack hf hk
      obtain rfl := Option.some.inj (hstep.symm.trans ht)
      exact listsOk_finish h hsp hown hnodes hfuts hf hk ha n
  | get hfin =>
      obtain ⟨g, grest, l, hg, -, hh, hstep, -⟩ := linked_get hl hsp.stack.nonempty hfin
      obtain rfl := Option.some.inj (hstep.symm.trans ht)
      obtain ⟨f, rest, hf⟩ := List.exists_cons_of_ne_nil hsp.stack.nonempty
      exact listsOk_get h hok hnodes hfuts hf hfin hg hh

/-- Before the first event there is one empty list. -/
theorem listsOk_init : ListsOk Serial.init Tool.init.lists Tool.init.stack Tool.init.handles [0] [0] := by
  refine ⟨⟨List.nodup_nil, by rintro l ⟨⟩, by rintro l ⟨⟩, ?_⟩, ⟨known_new, by rintro l ⟨⟩, trivial⟩, ?_⟩
  · rintro l (⟨g, hg, rfl⟩ | hh)
    · obtain rfl := List.mem_singleton.mp hg
      exact Nat.zero_lt_one
    · cases hh
  · simp [Serial.init]

end Steps

end FOrder.Rdtool
