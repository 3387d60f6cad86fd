import FOrder.Rdtool.Hash
import FOrder.Rdtool.SearchExact

/-!
# `Rdtool.HashFormed` — storing an element keeps a list well formed

An element whose id is above all others is stored in its slot or behind the buffer and linked to the last one. Only
the `next` of the last element changes, so that everything that is said about elements is easy; the walk gets one
step longer. The lookup finds exactly what a well-formed list has.

`WellFormedBy w` has the walk `w` as a list of places and elements, so every step says what the new walk is, and not
only that there is one. That no element is met twice follows from the ids, which grow along the walk, and it is what
makes the last step safe: the element that is linked to the new one is nowhere else in the walk.
-/

namespace FOrder.Rdtool

namespace Hash

variable {h : Hash} {w : List (Nat × HashElement)} {e : HashElement} {i a : Nat} {pre : Option Nat} {futureId : Nat}

/-! ## Reading what was stored

What is at an index after one store, and after one link. `element?` leaves the `next` out: whoever is only interested
in the groups sees nothing of the links being written. -/

/-- The element at an index without its `next`. -/
def element? (h : Hash) (i : Nat) : Option HashElement := (h.at? i).map HashCell.toHashElement

/-- What is where, after the last element was linked. -/
theorem at?_linkTo (i : Nat) : (h.linkTo pre a).at? i =
    if pre = some i then (h.at? i).map fun c => { c with next := some a } else h.at? i := by
  cases pre with
  | none => rfl
  | some k =>
      simp only [linkTo, at?, List.getElem?_modify, Option.some.injEq]
      cases h.cells[i]? with
      | none =>
          split
          · rfl
          · rfl
      | some o =>
          split
          · simp
          · simp

/-- And what linking leaves as it was. -/
theorem linkTo_fields : (h.linkTo pre a).tableLength = h.tableLength ∧
    (h.linkTo pre a).bufferLength = h.bufferLength ∧ (h.linkTo pre a).cells.length = h.cells.length ∧
    (h.linkTo pre a).buffer = h.buffer := by
  cases pre with
  | none => exact ⟨rfl, rfl, rfl, rfl⟩
  | some k =>
      refine ⟨rfl, rfl, List.length_modify .., ?_⟩
      have hmap : (h.cells.modify k fun c => c.map fun c => { c with next := some a }).map
          (Option.map HashCell.toHashElement) = h.cells.map (Option.map HashCell.toHashElement) := by
        apply List.ext_getElem?
        intro i
        simp only [List.getElem?_map, List.getElem?_modify]
        cases h.cells[i]? with
        | none => rfl
        | some o =>
            by_cases hk : k = i
            · simp [hk, Function.comp_def]
            · simp [hk]
      have hbuffer : ∀ cells : List (Option HashCell),
          (cells.drop h.tableLength).filterMap (fun c => c.map HashCell.toHashElement) =
            ((cells.map (Option.map HashCell.toHashElement)).drop h.tableLength).filterMap id := by
        intro cells
        rw [← List.map_drop, List.filterMap_map]
        rfl
      show ((h.cells.modify k _).drop h.tableLength).filterMap _ = (h.cells.drop h.tableLength).filterMap _
      rw [hbuffer, hbuffer, hmap]

/-- The place of an element is free. -/
theorem at?_addr (hlen : h.cells.length = h.tableLength + h.bufferLength) :
    h.at? (h.addr futureId) = none := by
  unfold addr
  split
  · rw [at?, List.getElem?_eq_none (Nat.le_of_eq hlen)]
    rfl
  · rename_i htaken
    unfold taken at htaken
    exact Option.not_isSome_iff_eq_none.mp htaken

/-- What is where, after an element was stored. -/
theorem at?_store (hpos : 0 < h.tableLength) (hlen : h.cells.length = h.tableLength + h.bufferLength) (i : Nat) :
    (h.store e).at? i = if i = h.addr e.futureId then some ⟨e, none⟩ else h.at? i := by
  have hmod := Nat.mod_lt e.futureId hpos
  unfold store addr
  split
  · show ((h.cells ++ [some ⟨e, none⟩])[i]?).join = _
    rcases Nat.lt_trichotomy i (h.tableLength + h.bufferLength) with hlt | rfl | hgt
    · rw [List.getElem?_append_left (by omega), if_neg (Nat.ne_of_lt hlt)]
      rfl
    · rw [if_pos rfl, ← hlen, List.getElem?_concat_length]
      rfl
    · rw [List.getElem?_eq_none (by rw [List.length_append, List.length_singleton]; omega),
        if_neg (Nat.ne_of_gt hgt), at?, List.getElem?_eq_none (by omega)]
  · show ((h.cells.set (e.futureId % h.tableLength) (some ⟨e, none⟩))[i]?).join = _
    by_cases hi : i = e.futureId % h.tableLength
    · rw [if_pos hi, hi, List.getElem?_set_self (by omega)]
      rfl
    · rw [if_neg hi, List.getElem?_set_ne (Ne.symm hi)]
      rfl

/-- And how long the list is then. -/
theorem store_fields : (h.store e).tableLength = h.tableLength ∧ (h.store e).head = h.head ∧
    (h.store e).bufferLength = h.bufferLength + (if h.taken e.futureId then 1 else 0) ∧
    (h.store e).cells.length = h.cells.length + (if h.taken e.futureId then 1 else 0) := by
  unfold store
  split
  · exact ⟨rfl, rfl, rfl, List.length_append⟩
  · exact ⟨rfl, rfl, rfl, List.length_set ..⟩

/-- An element whose slot is taken is behind the others in the buffer. -/
theorem buffer_store (hpos : 0 < h.tableLength) (hlen : h.cells.length = h.tableLength + h.bufferLength) :
    (h.store e).buffer = if h.taken e.futureId then h.buffer ++ [e] else h.buffer := by
  have hmod := Nat.mod_lt e.futureId hpos
  unfold store buffer
  split
  · show ((h.cells ++ [some (⟨e, none⟩ : HashCell)]).drop h.tableLength).filterMap _ = _
    rw [List.drop_append_of_le_length (by omega), List.filterMap_append]
    rfl
  · show ((h.cells.set (e.futureId % h.tableLength) (some ⟨e, none⟩)).drop h.tableLength).filterMap _ = _
    rw [List.drop_set_of_lt hmod]

/-- The buffer is what is behind the slots. -/
theorem mem_buffer : e ∈ h.buffer ↔ ∃ i, h.tableLength ≤ i ∧ h.element? i = some e := by
  unfold buffer element? at?
  rw [List.mem_filterMap]
  constructor
  · rintro ⟨o, ho, he⟩
    obtain ⟨k, hk⟩ := List.mem_iff_getElem?.mp ho
    rw [List.getElem?_drop] at hk
    refine ⟨h.tableLength + k, Nat.le_add_right _ _, ?_⟩
    rw [hk]
    exact he
  · rintro ⟨i, hi, he⟩
    obtain ⟨c, hc, rfl⟩ := Option.map_eq_some_iff.mp he
    have hc : h.cells[i]? = some (some c) := Option.join_eq_some_iff.mp hc
    refine ⟨some c, List.mem_iff_getElem?.mpr ⟨i - h.tableLength, ?_⟩, rfl⟩
    rw [List.getElem?_drop, Nat.add_sub_cancel' hi, hc]

/-! ## The walk

The walk follows `next` from the head and lists what it meets. It reads the places it has been to and no others, so a
store to a free place does not disturb it, and it gets longer by one when its last element is linked. -/

/-- A walk that does not look at what has changed. -/
theorem walk_mem {p : Option Nat} {x : Nat × HashElement} (hw : Walk h p w) (hx : x ∈ w) :
    h.element? x.1 = some x.2 := by
  induction w generalizing p with
  | nil => cases hx
  | cons y w ih =>
      obtain ⟨-, c, hc, he, hrest⟩ := hw
      rcases List.mem_cons.mp hx with rfl | hx
      · rw [element?, hc, Option.map_some, he]
      · exact ih hrest hx

/-- The walk gets one step longer when its last element is linked to a new one. -/
theorem walk_concat {h' : Hash} {p : Option Nat} {last : Nat} (hw : Walk h p w)
    (hlast : w.getLast?.map Prod.fst = some last) (hnodup : (w.map Prod.fst).Nodup)
    (hnew : h'.at? a = some ⟨e, none⟩) (htail : h'.at? last = (h.at? last).map fun c => { c with next := some a })
    (hkeep : ∀ i ∈ w.map Prod.fst, i ≠ last → h'.at? i = h.at? i) : Walk h' p (w ++ [(a, e)]) := by
  induction w generalizing p with
  | nil => cases hlast
  | cons x w ih =>
      obtain ⟨hp, c, hc, he, hrest⟩ := hw
      obtain ⟨hx, hnodup⟩ := List.nodup_cons.mp hnodup
      cases w with
      | nil =>
          obtain rfl : x.1 = last := Option.some.inj hlast
          refine ⟨hp, { c with next := some a }, ?_, he, rfl, _, hnew, rfl, rfl⟩
          rw [htail, hc, Option.map_some]
      | cons y w =>
          have hlast : ((y :: w).getLast?).map Prod.fst = some last := by
            rwa [List.getLast?_cons_cons] at hlast
          have hne : x.1 ≠ last := by
            rintro rfl
            obtain ⟨z, hz, hzl⟩ := Option.map_eq_some_iff.mp hlast
            exact hx (hzl ▸ List.mem_map_of_mem (List.mem_of_getLast? hz))
          refine ⟨hp, c, ?_, he, ?_⟩
          · rw [hkeep x.1 List.mem_cons_self hne, hc]
          · exact ih hrest hlast hnodup fun i hi => hkeep i (List.mem_cons_of_mem _ hi)

/-- Whatever the walk meets is stored there. -/
theorem WellFormedBy.element (hf : h.WellFormedBy w) {x : Nat × HashElement} (hx : x ∈ w) :
    h.element? x.1 = some x.2 := walk_mem hf.walk hx

/-- An element is met once, because the ids grow. -/
theorem WellFormedBy.nodup (hf : h.WellFormedBy w) : (w.map Prod.fst).Nodup := by
  have hpair : w.Pairwise fun x y => x.1 ≠ y.1 := by
    refine hf.increasing.imp_of_mem ?_
    intro x y hx hy hlt heq
    have hxe := hf.element hx
    rw [heq, hf.element hy] at hxe
    rw [Option.some.inj hxe] at hlt
    exact absurd hlt (Nat.lt_irrefl _)
  exact List.pairwise_map.mpr hpair

/-- What is at an index is met by the walk. -/
theorem WellFormedBy.mem (hf : h.WellFormedBy w) (he : h.element? i = some e) : (i, e) ∈ w := by
  obtain ⟨c, hc, -⟩ := Option.map_eq_some_iff.mp he
  have hmem := (hf.exact i).mp (by rw [hc]; rfl)
  obtain ⟨⟨k, x⟩, hx, rfl⟩ := List.mem_map.mp hmem
  have hxe := hf.element hx
  rw [Option.some.inj (he.symm.trans hxe)]
  exact hx

end Hash

/-! ## One element more

The body of all five loops in one lemma. What it needs of the new element is that its id is above those that are
there; the chains that the loops walk along have this from the lists they come from. -/

/-- The list that is being made is well formed at every time, and `pre` is its last element. -/
structure Table.Ok (t : Table) (w : List (Nat × HashElement)) : Prop where
  formed : t.hash.WellFormedBy w
  pre : t.pre = w.getLast?.map Prod.fst
  pos : 0 < t.hash.tableLength

variable {t : Table} {w : List (Nat × HashElement)} {e : HashElement}

/-- What is at an index after the step: the new element is at its place, the last one is linked to it. -/
theorem Table.Ok.at?_link (ht : t.Ok w) (i : Nat) : (t.link e).hash.at? i =
    if i = t.hash.addr e.futureId then some ⟨e, none⟩
    else if t.pre = some i then (t.hash.at? i).map fun c => { c with next := some (t.hash.addr e.futureId) }
    else t.hash.at? i := by
  have hlen := ht.formed.length
  have hat : (t.link e).hash.at? i = ((t.hash.store e).linkTo t.pre (t.hash.addr e.futureId)).at? i := rfl
  rw [hat, Hash.at?_linkTo, Hash.at?_store ht.pos hlen]
  by_cases hi : i = t.hash.addr e.futureId
  · -- the last element is at another place
    have hpre : t.pre ≠ some i := by
      intro hpre
      rw [ht.pre] at hpre
      obtain ⟨x, hx, hxi⟩ := Option.map_eq_some_iff.mp hpre
      have hxe := ht.formed.element (List.mem_of_getLast? hx)
      rw [hxi, hi, Hash.element?, Hash.at?_addr hlen] at hxe
      cases hxe
    rw [if_neg hpre, if_pos hi, if_pos hi]
  · rw [if_neg hi, if_neg hi]

/-- The elements, whatever their `next` is. -/
theorem Table.Ok.element?_link (ht : t.Ok w) (i : Nat) : (t.link e).hash.element? i =
    if i = t.hash.addr e.futureId then some e else t.hash.element? i := by
  rw [Hash.element?, ht.at?_link]
  split
  · rfl
  · split
    · rw [Option.map_map]
      rfl
    · rfl

/-- **One step** of each loop. The new element is above all others, so its id is new: its slot is free, or taken by
    another id, and then it goes into the buffer, where it is above the others too. -/
theorem Table.Ok.link (ht : t.Ok w) (he : ∀ x ∈ w, x.2.futureId < e.futureId) :
    (t.link e).Ok (w ++ [(t.hash.addr e.futureId, e)]) := by
  have hlen := ht.formed.length
  have hpos := ht.pos
  obtain ⟨hT, hB, hcells, hbuffer⟩ := @Hash.linkTo_fields (t.hash.store e) (t.hash.addr e.futureId) t.pre
  obtain ⟨hT', hhead', hB', hcells'⟩ := @Hash.store_fields t.hash e
  have hTl : (t.link e).hash.tableLength = t.hash.tableLength := hT.trans hT'
  have hBl : (t.link e).hash.bufferLength = t.hash.bufferLength + (if t.hash.taken e.futureId then 1 else 0) :=
    hB.trans hB'
  have hbuf : (t.link e).hash.buffer = (t.hash.store e).buffer := hbuffer
  -- an element that was there is still there
  have hold : ∀ i x, t.hash.element? i = some x → (t.link e).hash.element? i = some x := by
    intro i x hx
    rw [ht.element?_link, if_neg, hx]
    rintro rfl
    rw [Hash.element?, Hash.at?_addr hlen] at hx
    cases hx
  have hcell : ∀ {h : Hash} {i : Nat} {x : HashElement}, h.element? i = some x →
      ∃ c, h.at? i = some c ∧ c.toHashElement = x := fun hx => Option.map_eq_some_iff.mp hx
  refine ⟨⟨?_, ?_, ?_, ?_, ?_, ?_, ?_, ?_, ?_⟩, ?_, ?_⟩
  · cases hw : w.getLast? with
    | none =>
        obtain rfl := List.getLast?_eq_none_iff.mp hw
        have hhead : (t.link e).hash.head = some (t.hash.addr e.futureId) := by
          have hpre : t.pre = none := ht.pre
          unfold Table.link
          rw [hpre]
          rfl
        refine ⟨hhead, ⟨e, none⟩, ?_, rfl, rfl⟩
        rw [ht.at?_link, if_pos rfl]
    | some x =>
        have hpre : t.pre = some x.1 := by
          rw [ht.pre, hw]
          rfl
        have hhead : (t.link e).hash.head = t.hash.head := by
          unfold Table.link
          rw [hpre]
          exact hhead'
        have hxe := ht.formed.element (List.mem_of_getLast? hw)
        have hne : x.1 ≠ t.hash.addr e.futureId := by
          intro heq
          rw [heq, Hash.element?, Hash.at?_addr hlen] at hxe
          cases hxe
        rw [hhead]
        refine Hash.walk_concat ht.formed.walk (by rw [hw]; rfl) ht.formed.nodup ?_ ?_ ?_
        · rw [ht.at?_link, if_pos rfl]
        · rw [ht.at?_link, if_neg hne, if_pos hpre]
        · intro i hi hil
          obtain ⟨y, hy, rfl⟩ := List.mem_map.mp hi
          have hya : y.1 ≠ t.hash.addr e.futureId := by
            intro heq
            have hye := ht.formed.element hy
            rw [heq, Hash.element?, Hash.at?_addr hlen] at hye
            cases hye
          rw [ht.at?_link, if_neg hya, if_neg]
          rw [hpre]
          exact fun heq => hil (Option.some.inj heq).symm
  · refine List.pairwise_append.mpr ⟨ht.formed.increasing, List.pairwise_singleton _ _, ?_⟩
    intro x hx y hy
    rw [List.mem_singleton.mp hy]
    exact he x hx
  · intro i
    have hsome : ∀ (h : Hash), (h.at? i).isSome = (h.element? i).isSome := fun h => by
      rw [Hash.element?, Option.isSome_map]
    rw [hsome, ht.element?_link, List.map_append, List.mem_append, ← ht.formed.exact, hsome]
    by_cases hi : i = t.hash.addr e.futureId
    · simp [hi]
    · simp [hi]
  · rw [List.length_append, List.length_singleton, ← ht.formed.total]
    rfl
  · rw [hTl, hBl]
    refine hcells.trans ?_
    rw [hcells', hlen]
    omega
  · intro i hi hlt
    rw [hTl] at hi hlt
    rw [hBl] at hlt
    have hex : ((t.link e).hash.element? i).isSome := by
      rw [ht.element?_link]
      by_cases hia : i = t.hash.addr e.futureId
      · rw [if_pos hia]
        rfl
      · rw [if_neg hia, Hash.element?, Option.isSome_map]
        refine ht.formed.filled i hi ?_
        -- the place behind the buffer is the new one when the slot is taken
        unfold Hash.addr at hia
        split at hlt
        · rename_i htaken
          rw [if_pos htaken] at hia
          omega
        · omega
    rwa [Hash.element?, Option.isSome_map] at hex
  · intro i c hc hi
    rw [hTl] at hi ⊢
    have hce : (t.link e).hash.element? i = some c.toHashElement := by
      rw [Hash.element?, hc, Option.map_some]
    rw [ht.element?_link] at hce
    by_cases hia : i = t.hash.addr e.futureId
    · rw [if_pos hia] at hce
      rw [← Option.some.inj hce, hia]
      rw [hia] at hi
      unfold Hash.addr at hi ⊢
      split
      · rename_i htaken
        rw [if_pos htaken] at hi
        omega
      · rfl
    · rw [if_neg hia] at hce
      obtain ⟨c₀, hc₀, heq⟩ := hcell hce
      rw [← heq]
      exact ht.formed.slot i c₀ hc₀ hi
  · intro i c hc hi
    rw [hTl] at hi ⊢
    have hce : (t.link e).hash.element? i = some c.toHashElement := by
      rw [Hash.element?, hc, Option.map_some]
    rw [ht.element?_link] at hce
    by_cases hia : i = t.hash.addr e.futureId
    · -- the element that took the slot is older
      rw [if_pos hia] at hce
      rw [← Option.some.inj hce]
      have hmod := Nat.mod_lt e.futureId hpos
      have htaken : t.hash.taken e.futureId = true := by
        by_contra hfree
        rw [hia, Hash.addr, if_neg hfree] at hi
        omega
      obtain ⟨c', hc'⟩ := Option.isSome_iff_exists.mp htaken
      have hce' : t.hash.element? (e.futureId % t.hash.tableLength) = some c'.toHashElement := by
        rw [Hash.element?, hc', Option.map_some]
      obtain ⟨d, hd, hdc⟩ := hcell (hold _ _ hce')
      refine ⟨d, hd, ?_⟩
      rw [hdc]
      exact Nat.ne_of_lt (he _ (ht.formed.mem hce'))
    · rw [if_neg hia] at hce
      obtain ⟨c₀, hc₀, heq⟩ := hcell hce
      obtain ⟨c', hc', hne⟩ := ht.formed.clash i c₀ hc₀ hi
      have hce' : t.hash.element? (c₀.futureId % t.hash.tableLength) = some c'.toHashElement := by
        rw [Hash.element?, hc', Option.map_some]
      obtain ⟨d, hd, hdc⟩ := hcell (hold _ _ hce')
      rw [← heq]
      refine ⟨d, hd, ?_⟩
      rw [hdc]
      exact hne
  · rw [hbuf, Hash.buffer_store hpos hlen]
    split
    · refine List.pairwise_append.mpr ⟨ht.formed.sorted, List.pairwise_singleton _ _, ?_⟩
      intro x hx y hy
      obtain ⟨i, -, hxe⟩ := Hash.mem_buffer.mp hx
      rw [List.mem_singleton.mp hy]
      exact he _ (ht.formed.mem hxe)
    · exact ht.formed.sorted
  · rw [List.getLast?_concat]
    rfl
  · rw [hTl]
    exact hpos

/-- A table without elements. -/
theorem Table.formed_empty {base tableLength : Nat} :
    (Table.empty base tableLength).hash.WellFormedBy [] := by
  have hat : ∀ i, (Table.empty base tableLength).hash.at? i = none := by
    intro i
    show ((List.replicate tableLength (none : Option HashCell))[i]?).join = none
    rw [List.getElem?_replicate]
    split
    · rfl
    · rfl
  refine ⟨rfl, List.Pairwise.nil, ?_, rfl, List.length_replicate, ?_, ?_, ?_, ?_⟩
  · intro i
    rw [hat]
    simp
  · intro i hi hlt
    exact absurd hlt (Nat.not_lt.mpr hi)
  · intro i c hc
    rw [hat] at hc
    cases hc
  · intro i c hc
    rw [hat] at hc
    cases hc
  · have hnil : (Table.empty base tableLength).hash.buffer = [] := by
      refine List.filterMap_eq_nil_iff.mpr ?_
      intro o ho
      rw [List.eq_of_mem_replicate (List.mem_of_mem_drop ho)]
      rfl
    rw [hnil]
    exact List.Pairwise.nil

/-- And the start of each loop. -/
theorem Table.ok_empty {base tableLength : Nat} (hpos : 0 < tableLength) : (Table.empty base tableLength).Ok [] :=
  ⟨Table.formed_empty, rfl, hpos⟩

/-- The elements are stored in the order in which they are met. -/
def Table.linkAll (t : Table) (es : List HashElement) : Table := es.foldl Table.link t

/-- **A whole loop**, when the ids that it meets grow. -/
theorem Table.Ok.linkAll {es : List HashElement} (ht : t.Ok w)
    (hes : (w.map Prod.snd ++ es).Pairwise fun e e' => e.futureId < e'.futureId) :
    ∃ w', (t.linkAll es).Ok w' ∧ w'.map Prod.snd = w.map Prod.snd ++ es := by
  induction es generalizing t w with
  | nil => exact ⟨w, ht, (List.append_nil _).symm⟩
  | cons e es ih =>
      have he : ∀ x ∈ w, x.2.futureId < e.futureId := by
        intro x hx
        exact (List.pairwise_append.mp hes).2.2 _ (List.mem_map_of_mem hx) _ List.mem_cons_self
      have hmap : (w ++ [(t.hash.addr e.futureId, e)]).map Prod.snd = w.map Prod.snd ++ [e] := List.map_append
      rw [List.append_cons, ← hmap] at hes
      obtain ⟨w', hw', heq⟩ := ih (ht.link he) hes
      refine ⟨w', hw', ?_⟩
      rw [heq, hmap, List.append_assoc]
      rfl

/-! ## The lookup

The slot of an id may be taken by another id; then the group, if the list has it, is behind the table, where the ids
grow, and a binary search finds it. That the buffer is sorted is part of `WellFormed`, and holds because the loops
store the elements in the order of their ids. -/

namespace Hash

variable {h : Hash} {futureId : Nat} {group : List Node}

/-- A list has what one of its places has. -/
theorem has_iff : h.Has futureId group ↔ ∃ i, h.element? i = some ⟨futureId, group⟩ := by
  constructor
  · rintro ⟨i, c, hc, rfl, rfl⟩
    exact ⟨i, by rw [element?, hc, Option.map_some]⟩
  · rintro ⟨i, hi⟩
    obtain ⟨c, hc, he⟩ := Option.map_eq_some_iff.mp hi
    exact ⟨i, c, hc, by rw [he], by rw [he]⟩

/-- The list has what the walk meets. -/
theorem WellFormedBy.has_iff (hf : h.WellFormedBy w) :
    h.Has futureId group ↔ ⟨futureId, group⟩ ∈ w.map Prod.snd := by
  rw [Hash.has_iff, List.mem_map]
  constructor
  · rintro ⟨i, hi⟩
    exact ⟨_, hf.mem hi, rfl⟩
  · rintro ⟨x, hx, hxe⟩
    exact ⟨x.1, by rw [hf.element hx, hxe]⟩

/-- **The lookup** finds the group of an id exactly when the list has one. -/
theorem WellFormed.findGroup_iff (hf : h.WellFormed) : h.findGroup futureId = some group ↔ h.Has futureId group := by
  obtain ⟨w, hf⟩ := hf
  have hlen : h.buffer.length = h.bufferLength := by
    have hall : ∀ o ∈ h.cells.drop h.tableLength, (o.map HashCell.toHashElement).isSome := by
      intro o ho
      obtain ⟨k, hk⟩ := List.mem_iff_getElem?.mp ho
      rw [List.getElem?_drop] at hk
      have hlt := (List.getElem?_eq_some_iff.mp hk).1
      have hfilled := hf.filled (h.tableLength + k) (Nat.le_add_right _ _) (by rw [← hf.length]; exact hlt)
      rw [at?, hk] at hfilled
      rw [Option.isSome_map]
      exact hfilled
    rw [buffer, List.filterMap_length_eq_length.mpr hall, List.length_drop, hf.length]
    omega
  constructor
  · intro hfind
    unfold findGroup at hfind
    split at hfind
    · rename_i c hc
      split at hfind
      · rename_i hid
        exact ⟨_, c, hc, hid, Option.some.inj hfind⟩
      · obtain ⟨e, he, hg⟩ := Option.map_eq_some_iff.mp hfind
        obtain ⟨hmem, hcmp⟩ := binSearch_some he
        obtain ⟨i, -, hi⟩ := mem_buffer.mp hmem
        obtain ⟨c', hc', hce⟩ := Option.map_eq_some_iff.mp hi
        refine ⟨i, c', hc', ?_, ?_⟩
        · rw [hce]
          exact Nat.compare_eq_eq.mp hcmp
        · rw [hce]
          exact hg
    · cases hfind
  · rintro ⟨i, c, hc, rfl, rfl⟩
    unfold findGroup
    rcases Nat.lt_or_ge i h.tableLength with hi | hi
    · rw [← hf.slot i c hc hi, hc]
      dsimp only
      rw [if_pos rfl]
    · obtain ⟨c', hc', hne⟩ := hf.clash i c hc hi
      rw [hc']
      dsimp only
      have hmem : c.toHashElement ∈ h.buffer := by
        refine mem_buffer.mpr ⟨i, hi, ?_⟩
        rw [element?, hc, Option.map_some]
      have hfind := NodeList.binSearch_futureId hf.sorted hmem
      rw [hlen] at hfind
      rw [if_neg hne, hfind, Option.map_some]

end Hash

end FOrder.Rdtool
