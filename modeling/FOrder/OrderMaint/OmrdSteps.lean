import FOrder.OrderMaint.Omrd

/-!
# `OrderMaint.OmrdSteps` — what one worker's step on a structure leaves to the others

An insert and a mark leave every list where it is, with its nodes and the room behind each node but the base. A
relabel spaces the lists of the stack anew and keeps the others.

For one worker the specifications in `Omrd` are enough. With several, what one of them does has to be harmless to
what the others have found out, and that is always about the room behind a node: there is none left (`Closed`),
there is as much as after a relabel (`Spaced`), or as much as the first new node leaves (`Light`). `Om.Room om x P`
says that the room behind `x` is as `P` says, and the lemmas here say what becomes of it:

- an accepted insert uses up room behind its base, and no other (`Omrd.tryInsert_keeps`);
- a refused insert has found it closed (`Omrd.tryInsert_refused`);
- a mark changes no label (`setHeavy_keeps`);
- a relabel makes it `Spaced`, or leaves it as it is (`Omrd.relabel_room`).

`Om.Keeps` packs the frame of an insert or a mark: which list a node is in, and the room behind it.
-/

namespace FOrder.OrderMaint

variable {base n x : Name} {nodes nodes' : List BlNode} {label : Nat} {next : Option Nat}

/-! ## The room behind a node -/

/-- Behind `x` there is room as `P` says. -/
def Om.Room (om : Om) (x : Name) (P : Nat → Option Nat → Prop) : Prop :=
  ∃ b ∈ om.root.lists, ∃ label next, follow x b.nodes = some (label, next) ∧ P label next

/-- No label is left. -/
def Closed (label : Nat) (next : Option Nat) : Prop := bound next ≤ label + 1

/-- As after a relabel. -/
def Spaced (label : Nat) (next : Option Nat) : Prop := label + nodeInterval ≤ bound next

/-- As behind the first node that is put there. -/
def Light (label : Nat) (next : Option Nat) : Prop := label + 2 ^ 56 ≤ bound next

/-- A node with a label is in the list. -/
theorem follow_names (h : follow x nodes = some (label, next)) : x ∈ nodes.map BlNode.name := by
  induction nodes with
  | nil => cases h
  | cons b rest ih =>
      by_cases hb : b.name = x
      · rw [← hb]
        exact List.mem_cons_self
      · apply List.mem_cons_of_mem
        apply ih
        rw [← h]
        exact (if_neg hb).symm

/-- A node with room behind it is in the structure. -/
theorem Om.Room.mem {om : Om} {P : Nat → Option Nat → Prop} (h : om.Room x P) : x ∈ om.root.names := by
  obtain ⟨b, hb, label, next, hfollow, -⟩ := h
  exact mem_names.mpr ⟨b, hb, follow_names hfollow⟩

/-- An accepted insert was given a label, and the new node has what is left of the room. -/
theorem follow_new (h : Labelled nodes) (hinsert : insertAt base n nodes = some (some nodes'))
    (hnew : n ∉ nodes.map BlNode.name) (hfollow : follow base nodes = some (label, next)) :
    label + 2 ≤ bound next ∧ bound next ≤ 2 ^ 64 ∧ follow n nodes' = some (middle label next, next) := by
  induction nodes generalizing nodes' with
  | nil => cases hfollow
  | cons b rest ih =>
      have hbn : b.name ≠ n := fun heq => hnew (heq ▸ List.mem_cons_self)
      by_cases hb : b.name = base
      · unfold follow at hfollow
        rw [if_pos hb] at hfollow
        cases hfollow
        obtain ⟨hlt, hbound⟩ := h.bound_head
        have hroom : b.label + 2 ≤ bound (rest.head?.map BlNode.label) := by
          by_contra hno
          rw [insertAt_full h hb (by omega)] at hinsert
          cases hinsert
        rw [insertAt_here h hb hroom] at hinsert
        cases hinsert
        refine ⟨hroom, hbound, ?_⟩
        unfold follow
        rw [if_neg hbn]
        unfold follow
        rw [if_pos rfl]
      · unfold follow at hfollow
        rw [if_neg hb] at hfollow
        rw [insertAt_there hb] at hinsert
        obtain ⟨r, hr, hmap⟩ := Option.map_eq_some_iff.mp hinsert
        obtain ⟨tail, rfl, rfl⟩ := Option.map_eq_some_iff.mp hmap
        obtain ⟨hroom, hbound, hfollow'⟩ := ih h.tail hr (fun hmem => hnew (List.mem_cons_of_mem _ hmem)) hfollow
        refine ⟨hroom, hbound, ?_⟩
        unfold follow
        rw [if_neg hbn]
        exact hfollow'

/-- A refused insert had no label. -/
theorem closed_of_refused (h : Labelled nodes) (hinsert : insertAt base n nodes = some none)
    (hfollow : follow base nodes = some (label, next)) : Closed label next := by
  induction nodes with
  | nil => cases hfollow
  | cons b rest ih =>
      by_cases hb : b.name = base
      · unfold follow at hfollow
        rw [if_pos hb] at hfollow
        cases hfollow
        by_contra hopen
        unfold Closed at hopen
        rw [insertAt_here h hb (by omega)] at hinsert
        cases hinsert
      · unfold follow at hfollow
        rw [if_neg hb] at hfollow
        rw [insertAt_there hb] at hinsert
        obtain ⟨r, hr, hmap⟩ := Option.map_eq_some_iff.mp hinsert
        cases r with
        | none => exact ih h.tail hr hfollow
        | some _ => cases hmap

/-- The room behind the other nodes stays: the new node is put between its base and the next one, so only these two
    have another neighbour, and the next one keeps what is behind it. By induction on the list. -/
theorem follow_other (hinsert : insertAt base n nodes = some (some nodes')) (hxb : x ≠ base) (hxn : x ≠ n) :
    follow x nodes' = follow x nodes := by
  induction nodes generalizing nodes' with
  | nil => cases hinsert
  | cons b rest ih =>
      by_cases hb : b.name = base
      · -- the node itself is the base, and what follows it is not touched
        have hshape : ∃ lab, nodes' = b :: ⟨n, lab⟩ :: rest := by
          unfold insertAt at hinsert
          rw [if_pos hb] at hinsert
          obtain ⟨lab, -, hinsert⟩ := Option.bind_eq_some_iff.mp hinsert
          split at hinsert
          · split at hinsert
            · cases hinsert
              exact ⟨lab, rfl⟩
            · cases hinsert
          · cases hinsert
        obtain ⟨lab, rfl⟩ := hshape
        have hbx : b.name ≠ x := fun heq => hxb (heq.symm.trans hb)
        simp only [follow, hbx, Ne.symm hxn, if_false]
      · rw [insertAt_there hb] at hinsert
        obtain ⟨r, hr, hmap⟩ := Option.map_eq_some_iff.mp hinsert
        obtain ⟨tail, rfl, rfl⟩ := Option.map_eq_some_iff.mp hmap
        have hhead : tail.head?.map BlNode.label = rest.head?.map BlNode.label := by
          cases rest with
          | nil => cases hr
          | cons c rest =>
              by_cases hc : c.name = base
              · unfold insertAt at hr
                rw [if_pos hc] at hr
                obtain ⟨lab, -, hr⟩ := Option.bind_eq_some_iff.mp hr
                split at hr
                · split at hr
                  · cases hr
                    simp
                  · cases hr
                · cases hr
              · rw [insertAt_there hc] at hr
                obtain ⟨r, -, hmap⟩ := Option.map_eq_some_iff.mp hr
                obtain ⟨tail', -, rfl⟩ := Option.map_eq_some_iff.mp hmap
                simp
        by_cases hbx : b.name = x
        · simp only [follow, hbx, if_true, hhead]
        · simp only [follow, hbx, if_false]
          exact ih hr

/-- In a list spaced anew there is room behind every node. -/
theorem follow_spaced {part : List BlNode} {i : Nat} (hlen : i + part.length ≤ sublistSize)
    (hx : x ∈ part.map BlNode.name) : ∃ label next, follow x (spaced i part) = some (label, next) ∧ Spaced label next := by
  induction part generalizing i with
  | nil => cases hx
  | cons b rest ih =>
      rw [List.length_cons] at hlen
      by_cases hb : b.name = x
      · exact ⟨_, _, if_pos hb, spaced_wide (by omega)⟩
      · obtain ⟨label, next, hfollow, hspaced⟩ := ih (i := i + 1) (by omega)
          ((List.mem_cons.mp hx).resolve_left fun heq => hb heq.symm)
        exact ⟨label, next, (if_neg hb).trans hfollow, hspaced⟩

/-- Half of such a room is behind the new node. -/
theorem light_of_spaced (hspaced : Spaced label next) (hbound : bound next ≤ 2 ^ 64) :
    Light (middle label next) next := by
  unfold Spaced nodeInterval at hspaced
  have hlt : label < bound next := by omega
  obtain ⟨-, -, -, hhalf⟩ := (middle_spec hlt hbound).2 (by omega)
  unfold Light
  omega

/-! ## Lists that stay -/

/-- Every list is still there, with its nodes and the room behind each of them but `base`. -/
structure Om.Keeps (om om' : Om) (base : Option Name) : Prop where
  lists : ∀ b ∈ om.root.lists, ∃ c ∈ om'.root.lists, c.above = b.above ∧ b.names ⊆ c.names ∧
    ∀ x ∈ b.names, some x ≠ base → follow x c.nodes = follow x b.nodes

variable {om om' : Om} {omrd omrd' : Omrd}

/-- When nothing was inserted, all room stays. -/
theorem Om.Keeps.room_none (h : om.Keeps om' none) {P : Nat → Option Nat → Prop} (hroom : om.Room x P) :
    om'.Room x P := by
  obtain ⟨b, hb, label, next, hfollow, hP⟩ := hroom
  obtain ⟨c, hc, -, -, hsame⟩ := h.lists b hb
  refine ⟨c, hc, label, next, ?_, hP⟩
  rw [hsame x (follow_names hfollow) (by simp), hfollow]

/-- Two nodes in one list. -/
def Om.Together (om : Om) (x y : Name) : Prop := ∃ b ∈ om.root.lists, x ∈ b.names ∧ y ∈ b.names

/-- Nodes that are in one list stay in one list. -/
theorem Om.Keeps.together {o : Option Name} (h : om.Keeps om' o) {x y : Name} (hxy : om.Together x y) :
    om'.Together x y := by
  obtain ⟨b, hb, hx, hy⟩ := hxy
  obtain ⟨c, hc, -, hsub, -⟩ := h.lists b hb
  exact ⟨c, hc, hsub hx, hsub hy⟩

/-- `x` is in the list that hangs from the leaf `t`. -/
def Om.Under (om : Om) (x : Name) (t : TlName) : Prop := ∃ b ∈ om.root.lists, x ∈ b.names ∧ b.above = t

/-- A node stays in the list of the same leaf. -/
theorem Om.Keeps.under {o : Option Name} (h : om.Keeps om' o) {t : TlName} (hx : om.Under x t) : om'.Under x t := by
  obtain ⟨b, hb, hmem, rfl⟩ := hx
  obtain ⟨c, hc, habove, hsub, -⟩ := h.lists b hb
  exact ⟨c, hc, hsub hmem, habove⟩

/-- A node is in one list only. -/
theorem Om.Under.unique (h : WellFormed om) {t u : TlName} (ht : om.Under x t) (hu : om.Under x u) : t = u := by
  obtain ⟨b, hb, hxb, rfl⟩ := ht
  obtain ⟨c, hc, hxc, rfl⟩ := hu
  rw [list_unique h hb hc hxb hxc]

/-- **An accepted insert.** The structure stays as it should be, the stack stays, the names are those of the
    abstract insert, base and new node are in one list, and the room behind the base, if it was that of a list
    spaced anew, is `Light` behind the new node. The last part says that room that was closed is not given out. -/
theorem Omrd.tryInsert_keeps (h : omrd.Ok) (hbase : base ∈ omrd.ds.root.names) (hnew : n ∉ omrd.ds.root.names)
    (htry : omrd.tryInsert base n = some (some omrd')) :
    omrd'.Ok ∧ omrd'.heavyNodes = omrd.heavyNodes ∧ omrd'.ds.root.names = insertAfter base n omrd.ds.root.names ∧
      omrd.ds.Keeps omrd'.ds (some base) ∧ omrd'.ds.Together base n ∧
      (omrd.ds.Room base Spaced → omrd'.ds.Room n Light) ∧ ¬omrd.ds.Room base Closed := by
  obtain ⟨pre, b, post, hlists, hmem, hcase⟩ := insert_lists h.wellFormed hbase hnew
  have hb : b ∈ omrd.ds.root.lists := hlists ▸ List.mem_append_right _ List.mem_cons_self
  have hnewb : n ∉ b.names := fun hmem => hnew (mem_names.mpr ⟨b, hb, hmem⟩)
  rcases hcase with ⟨-, hrefused⟩ | ⟨nodes, om', hat, hinsert, hlists', -, hnames⟩
  · simp [Omrd.tryInsert, hrefused] at htry
  · simp only [Omrd.tryInsert, hinsert, Option.map_some, Option.some.injEq] at htry
    subst htry
    have hok : ({ omrd with ds := om' } : Omrd).Ok := by
      rcases Omrd.tryInsert_spec h hb hmem hnew with ⟨hat', -⟩ | ⟨_, omrd', -, htry', hok, -⟩
      · rw [hat] at hat'
        cases hat'
      · simp only [Omrd.tryInsert, hinsert, Option.map_some, Option.some.injEq] at htry'
        rw [htry']
        exact hok
    have hnodes : nodes.map BlNode.name = insertAfter base n (b.nodes.map BlNode.name) := by
      rcases insertAt_spec n (h.wellFormed.labelled b hb) hmem with hrefused | ⟨nodes', hat', hnodes, -⟩
      · rw [hrefused] at hat
        cases hat
      · rw [hat'] at hat
        cases hat
        exact hnodes
    have hc : { b with nodes := nodes } ∈ om'.root.lists := hlists' ▸ List.mem_append_right _ List.mem_cons_self
    have hroom : ∀ {P}, omrd.ds.Room base P → ∃ label next, follow base b.nodes = some (label, next) ∧ P label next := by
      rintro P ⟨d, hd, label, next, hfollow, hP⟩
      obtain rfl := list_unique h.wellFormed hb hd hmem (follow_names hfollow)
      exact ⟨label, next, hfollow, hP⟩
    refine ⟨hok, rfl, hnames, ⟨?_⟩, ?_, ?_, ?_⟩
    · intro d hd
      rw [hlists] at hd
      rcases List.mem_append.mp hd with hd | hd
      · exact ⟨d, hlists' ▸ List.mem_append_left _ hd, rfl, fun _ hx => hx, fun _ _ _ => rfl⟩
      · rcases List.mem_cons.mp hd with rfl | hd
        · refine ⟨_, hc, rfl, ?_, ?_⟩
          · intro x hx
            show x ∈ nodes.map BlNode.name
            rw [hnodes]
            exact (mem_insertAfter hmem).mpr (Or.inr hx)
          · intro x hx hne
            exact follow_other hat (fun heq => hne (congrArg some heq)) (fun heq => hnewb (heq ▸ hx))
        · exact ⟨d, hlists' ▸ List.mem_append_right _ (List.mem_cons_of_mem _ hd), rfl, fun _ hx => hx,
            fun _ _ _ => rfl⟩
    · refine ⟨_, hc, ?_, ?_⟩
      · show base ∈ nodes.map BlNode.name
        rw [hnodes]
        exact (mem_insertAfter hmem).mpr (Or.inr hmem)
      · show n ∈ nodes.map BlNode.name
        rw [hnodes]
        exact (mem_insertAfter hmem).mpr (Or.inl rfl)
    · intro hspaced
      obtain ⟨label, next, hfollow, hwide⟩ := hroom hspaced
      obtain ⟨-, hbound, hnext⟩ := follow_new (h.wellFormed.labelled b hb) hat hnewb hfollow
      exact ⟨_, hc, _, _, hnext, light_of_spaced hwide hbound⟩
    · intro hclosed
      obtain ⟨label, next, hfollow, hfull⟩ := hroom hclosed
      obtain ⟨hopen, -, -⟩ := follow_new (h.wellFormed.labelled b hb) hat hnewb hfollow
      unfold Closed at hfull
      omega

/-- **A refused insert**: there is no room behind the base. -/
theorem Omrd.tryInsert_refused (h : omrd.Ok) (hbase : base ∈ omrd.ds.root.names) (hnew : n ∉ omrd.ds.root.names)
    (htry : omrd.tryInsert base n = some none) : omrd.ds.Room base Closed := by
  obtain ⟨b, hb, hmem⟩ := mem_names.mp hbase
  obtain ⟨label, next, hfollow⟩ := follow_mem hmem
  refine ⟨b, hb, label, next, hfollow, ?_⟩
  rcases Omrd.tryInsert_spec h hb hmem hnew with ⟨hat, -⟩ | ⟨_, _, -, htry', -⟩
  · exact closed_of_refused (h.wellFormed.labelled b hb) hat hfollow
  · rw [htry] at htry'
    cases htry'

/-- A try does not fail: the base is found, and no assertion of `om_insert` is violated. -/
theorem Omrd.tryInsert_ne_none (h : omrd.Ok) (hbase : base ∈ omrd.ds.root.names) (hnew : n ∉ omrd.ds.root.names) :
    omrd.tryInsert base n ≠ none := by
  obtain ⟨b, hb, hmem⟩ := mem_names.mp hbase
  rcases Omrd.tryInsert_spec h hb hmem hnew with ⟨-, htry⟩ | ⟨_, _, -, htry, -⟩
  · rw [htry]
    simp
  · rw [htry]
    simp

/-- **A mark** leaves everything but the marks. -/
theorem setHeavy_keeps (h : WellFormed om) (t : TlName) :
    om.Keeps { om with root := om.root.setHeavy t } none ∧ (om.root.setHeavy t).names = om.root.names := by
  obtain ⟨-, hlists⟩ := setHeavy_spec t h.shaped h.unmarked
  refine ⟨⟨?_⟩, ?_⟩
  · intro b hb
    refine ⟨b.setHeavy t, ?_, rfl, fun _ hx => hx, fun _ _ _ => rfl⟩
    show b.setHeavy t ∈ (om.root.setHeavy t).lists
    rw [hlists]
    exact List.mem_map_of_mem hb
  · show List.flatMap _ _ = List.flatMap _ _
    rw [hlists, List.flatMap_map]
    apply List.flatMap_congr
    intro b _
    rfl

/-- The order of the stack does not matter. -/
theorem Omrd.Ok.perm (h : omrd.Ok) {heavyNodes : List TlName} (hperm : omrd.heavyNodes.Perm heavyNodes) :
    ({ omrd with heavyNodes := heavyNodes } : Omrd).Ok where
  nodup := hperm.nodup_iff.mp h.nodup
  heavy t := by
    rw [← h.heavy t]
    exact hperm.mem_iff.symm
  wellFormed := h.wellFormed
  nonempty := h.nonempty

/-- **A relabel** keeps the room behind a node, or makes it anew. A list on the stack is cut into pieces that are
    spaced anew, and the node is in one of them; any other list stays. -/
theorem Omrd.relabel_room (shl : Nat → Nat) (h : omrd.Ok) (htotal : leavesAfter omrd.ds omrd.heavyNodes < 2 ^ 31)
    (hrelabel : omrd.relabel shl = some omrd') {P : Nat → Option Nat → Prop} (hx : omrd.ds.Room x P) :
    omrd'.ds.Room x P ∨ omrd'.ds.Room x Spaced := by
  by_cases hempty : omrd.heavyNodes = []
  · unfold Omrd.relabel at hrelabel
    rw [if_pos hempty] at hrelabel
    cases hrelabel
    exact Or.inl hx
  · have hcan : CanSplit omrd.ds omrd.heavyNodes := by
      refine ⟨h.nodup, ?_, fun b hb _ => h.nonempty b hb⟩
      intro y hy
      obtain ⟨a, ha, rfl, -⟩ := (h.heavy y).mp hy
      rw [(h.wellFormed.shaped.unsplit h.wellFormed.unmarked).1]
      exact List.mem_map_of_mem ha
    obtain ⟨ds, hds, -, hinto⟩ := OrderMaint.relabel_spec shl h.wellFormed hcan htotal
    unfold Omrd.relabel at hrelabel
    rw [if_neg hempty, hds] at hrelabel
    cases hrelabel
    have hin : x ∈ ds.root.names := hinto.names ▸ hx.mem
    obtain ⟨c, hc, hxc⟩ := mem_names.mp hin
    obtain ⟨b, hb, ⟨-, -, part, hnodes, -, hlen⟩ | ⟨-, -, hnodes⟩⟩ := hinto.origin hc
    · right
      have hpart : x ∈ part.map BlNode.name := by
        rw [← spaced_names 0, ← hnodes]
        exact hxc
      obtain ⟨label, next, hfollow, hspaced⟩ := follow_spaced (i := 0) (by rwa [Nat.zero_add]) hpart
      exact ⟨c, hc, label, next, hnodes ▸ hfollow, hspaced⟩
    · left
      obtain ⟨d, hd, label, next, hfollow, hP⟩ := hx
      have hxb : x ∈ b.names := by
        show x ∈ b.nodes.map BlNode.name
        rw [← hnodes]
        exact hxc
      obtain rfl := list_unique h.wellFormed hb hd hxb (follow_names hfollow)
      exact ⟨c, hc, label, next, hnodes ▸ hfollow, hP⟩

end FOrder.OrderMaint
