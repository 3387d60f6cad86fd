import FOrder.Rdtool.NodeList

/-!
# `Rdtool.SearchExact` — the binary search in a group agrees with a linear scan

A group asks a question in two orders and is sorted in one. The search goes left when the query is before an
entry in the english order only, and that is right because the entry's `desc` stands for what lies to the right
of it.
-/

namespace FOrder.Rdtool

namespace NodeList

/-- The group of `futureId` is in its slot, or in the buffer when the slot holds another id. -/
def Stored (l : NodeList) (futureId : Nat) (group : List Node) : Prop :=
  l.total ≠ 0 ∧
    (l.table[futureId % l.table.length]? = some (some ⟨futureId, group⟩) ∨
      ∃ e, l.table[futureId % l.table.length]? = some (some e) ∧ e.futureId ≠ futureId ∧
        l.buffer.Pairwise (fun e₁ e₂ => e₁.futureId < e₂.futureId) ∧ ⟨futureId, group⟩ ∈ l.buffer)

/-- Elements with growing ids are found by id. -/
theorem binSearch_futureId {buffer : List HashElement} {e : HashElement}
    (hsorted : buffer.Pairwise fun e₁ e₂ => e₁.futureId < e₂.futureId) (he : e ∈ buffer) :
    binSearch (fun e' => compare e'.futureId e.futureId) buffer (buffer.length + 1) 0 buffer.length = some e := by
  obtain ⟨j, hj⟩ := List.mem_iff_getElem?.mp he
  have hjlt := (List.getElem?_eq_some_iff.mp hj).1
  have hord : ∀ {i k : Nat} {x y : HashElement}, buffer[i]? = some x → buffer[k]? = some y → i < k →
      x.futureId < y.futureId := by
    intro i k x y hx hy hik
    obtain ⟨hi, rfl⟩ := List.getElem?_eq_some_iff.mp hx
    obtain ⟨hk, rfl⟩ := List.getElem?_eq_some_iff.mp hy
    exact List.pairwise_iff_getElem.mp hsorted i k hi hk hik
  have hsome : (binSearch (fun e' => compare e'.futureId e.futureId) buffer (buffer.length + 1) 0
      buffer.length).isSome = true := by
    apply binSearch_isSome (j := j) ?_ (Nat.zero_le _) hjlt (Nat.le_refl _) (by omega)
    intro i x hx
    constructor
    · intro hlt
      have hlt := Nat.compare_eq_lt.mp hlt
      rcases Nat.lt_trichotomy i j with hij | rfl | hij
      · exact hij
      · obtain rfl := Option.some.inj (hx.symm.trans hj)
        exact absurd hlt (Nat.lt_irrefl _)
      · exact absurd hlt (Nat.lt_asymm (hord hj hx hij))
    · intro hgt
      have hgt := Nat.compare_eq_gt.mp hgt
      rcases Nat.lt_trichotomy i j with hij | rfl | hij
      · exact absurd hgt (Nat.lt_asymm (hord hx hj hij))
      · obtain rfl := Option.some.inj (hx.symm.trans hj)
        exact absurd hgt (Nat.lt_irrefl _)
      · exact hij
  obtain ⟨x, hx⟩ := Option.isSome_iff_exists.mp hsome
  obtain ⟨hmem, hcmp⟩ := binSearch_some hx
  obtain ⟨i, hi⟩ := List.mem_iff_getElem?.mp hmem
  have hid := Nat.compare_eq_eq.mp hcmp
  rcases Nat.lt_trichotomy i j with hij | rfl | hij
  · exact absurd hid (Nat.ne_of_lt (hord hi hj hij))
  · rw [hx, ← hi, hj]
  · exact absurd hid.symm (Nat.ne_of_lt (hord hj hi hij))

theorem findGroup_of_stored {l : NodeList} {futureId : Nat} {group : List Node}
    (h : l.Stored futureId group) : l.findGroup futureId = some group := by
  obtain ⟨-, hslot | ⟨e, hslot, hne, hsorted, hmem⟩⟩ := h
  · unfold findGroup
    rw [hslot]
    simp
  · unfold findGroup
    rw [hslot]
    simp only [if_neg hne]
    have hfind := binSearch_futureId hsorted hmem
    rw [hfind]
    rfl

section Group

variable {s : OmNode → Prop} {precE precH : OmNode → OmNode → Bool} {group : List Node}

/-- What the search relies on, apart from the orders: the group is sorted in the english order, each `desc` is
    an entry's node, and a node left of `m` only in the english order that is before a later entry is before
    `m.desc`. -/
structure Searchable (s : OmNode → Prop) (precE precH : OmNode → OmNode → Bool) (group : List Node) : Prop where
  mem : ∀ m ∈ group, s m.cnode
  sorted : group.Pairwise fun m n => precE m.cnode n.cnode = true
  desc : ∀ m ∈ group, ∃ d ∈ group, m.desc = d.cnode ∧
    (d.cnode = m.cnode ∨ (precE m.cnode d.cnode = true ∧ precH m.cnode d.cnode = true))
  cover : group.Pairwise fun m n => precE m.cnode n.cnode = true → precH m.cnode n.cnode = true →
    ∀ q, s q → precE q n.cnode = true → precH q n.cnode = true → precE q m.cnode = true →
      precH q m.cnode = false → precE q m.desc = true ∧ precH q m.desc = true

/-- The search goes towards every entry that is after the query in both orders. -/
theorem testNode_dir (hE : StrictWeakOn s precE) (hH : StrictWeakOn s precH)
    (hg : Searchable s precE precH group) {q : OmNode} (hq : s q) {j : Nat} {n : Node}
    (hj : group[j]? = some n) (hqE : precE q n.cnode = true) (hqH : precH q n.cnode = true) (i : Nat) (m : Node)
    (hi : group[i]? = some m) : (testNode precE precH q m = .lt → i < j) ∧
      (testNode precE precH q m = .gt → j < i) := by
  have hm := List.mem_of_getElem? hi
  have hn := List.mem_of_getElem? hj
  obtain ⟨hilt, hmi⟩ := List.getElem?_eq_some_iff.mp hi
  obtain ⟨hjlt, hnj⟩ := List.getElem?_eq_some_iff.mp hj
  unfold testNode
  constructor
  · -- the query is not before `m` in the english order, so `n` is right of `m`
    intro hlt
    have hqm : precE q m.cnode = false := by
      split at hlt
      · cases hlt
      · split at hlt
        · rename_i hqm
          simpa using hqm
        · split at hlt
          · cases hlt
          · cases hlt
    rcases Nat.lt_trichotomy i j with hij | rfl | hij
    · exact hij
    · rw [← hmi, hnj, hqE] at hqm
      cases hqm
    · have hnm := List.pairwise_iff_getElem.mp hg.sorted j i hjlt hilt hij
      rw [hnj, hmi] at hnm
      rw [hE.trans hq (hg.mem n hn) (hg.mem m hm) hqE hnm] at hqm
      cases hqm
  · -- the query is left of `m` and not before its `desc`
    intro hgt
    split at hgt
    · cases hgt
    · rename_i hboth
      split at hgt
      · cases hgt
      · rename_i hqm
        split at hgt
        · cases hgt
        · rename_i hdesc
          have hqmE : precE q m.cnode = true := by simpa using hqm
          have hqmH : precH q m.cnode = false := by simpa [hqmE] using hboth
          rcases Nat.lt_trichotomy i j with hij | rfl | hij
          · have hmn := List.pairwise_iff_getElem.mp hg.sorted i j hilt hjlt hij
            have hcover := List.pairwise_iff_getElem.mp hg.cover i j hilt hjlt hij
            rw [hnj, hmi] at hmn hcover
            have hmnH : precH m.cnode n.cnode = true := by
              rcases hH.between hq (hg.mem m hm) (hg.mem n hn) hqH with h | h
              · rw [h] at hqmH
                cases hqmH
              · exact h
            obtain ⟨hdE, hdH⟩ := hcover hmn hmnH q hq hqE hqH hqmE hqmH
            simp [hdE, hdH] at hdesc
          · rw [← hmi, hnj, hqH] at hqmH
            cases hqmH
          · exact hij

/-- What `search` answers: a hit at `cnode` or `desc` names an entry after the query, and while there is such an entry
    the binary search keeps it between its bounds. -/
theorem search_spec (hE : StrictWeakOn s precE) (hH : StrictWeakOn s precH) {l : NodeList} {futureId : Nat}
    (hstored : l.Stored futureId group) (hg : Searchable s precE precH group) {q : OmNode} (hq : s q) :
    l.search precE precH q futureId = true ↔
      ∃ n ∈ group, precE q n.cnode = true ∧ precH q n.cnode = true := by
  have hfind := findGroup_of_stored hstored
  have hne : l.isEmpty = false := by
    simpa [isEmpty] using hstored.1
  unfold search
  rw [hne, hfind]
  simp only [Bool.false_eq_true, if_false]
  constructor
  · intro h
    obtain ⟨m, hm⟩ := Option.isSome_iff_exists.mp h
    obtain ⟨hmem, htest⟩ := binSearch_some hm
    rcases testNode_eq htest with hc | hd
    · exact ⟨m, hmem, hc⟩
    · obtain ⟨d, hdmem, heq, -⟩ := hg.desc m hmem
      rw [heq] at hd
      exact ⟨d, hdmem, hd⟩
  · rintro ⟨n, hn, hqE, hqH⟩
    obtain ⟨j, hj⟩ := List.mem_iff_getElem?.mp hn
    have hjlt := (List.getElem?_eq_some_iff.mp hj).1
    exact binSearch_isSome (testNode_dir hE hH hg hq hj hqE hqH) (Nat.zero_le _) hjlt (Nat.le_refl _) (by omega)

/-- **The search in a group is a linear scan.** The query is a pair of an english and a hebrew node under one
    name: its comparisons in the two orders are independent. -/
theorem search_iff_scan (hE : StrictWeakOn s precE) (hH : StrictWeakOn s precH) {l : NodeList} {futureId : Nat}
    (hstored : l.Stored futureId group) (hg : Searchable s precE precH group) {q : OmNode} (hq : s q) :
    l.search precE precH q futureId = true ↔
      ∃ n ∈ group, precE q n.cnode = true ∧ precH q n.cnode = true :=
  search_spec hE hH hstored hg hq

end Group

/-- An english-only hit: `0` is left of `1`, and before the later entry `3` in both orders. The group is in the
    buffer. -/
def leftHit : NodeList := ⟨[some ⟨0, []⟩], [⟨5, [⟨1, 3⟩, ⟨3, 3⟩]⟩], [], 2⟩

def leftHitHebrew (n : OmNode) : Nat := if n = 0 then 2 else n

theorem search_iff_scan_leftHit :
    leftHit.search (fun x y => decide (x < y)) (fun x y => decide (leftHitHebrew x < leftHitHebrew y)) 0 5 = true ↔
      ∃ n ∈ ([⟨1, 3⟩, ⟨3, 3⟩] : List Node), decide (0 < n.cnode) = true ∧
        decide (leftHitHebrew 0 < leftHitHebrew n.cnode) = true := by
  refine search_iff_scan (strictWeakOn_key (fun _ => True) id) (strictWeakOn_key _ leftHitHebrew)
    ⟨by decide, Or.inr ⟨⟨0, []⟩, rfl, by decide, List.pairwise_singleton _ _, by decide⟩⟩
    ⟨fun _ _ => trivial, by decide, by decide, ?_⟩ trivial
  apply List.pairwise_pair.mpr
  intro _ _ q _ hE hH _ _
  exact ⟨hE, hH⟩

end NodeList
end FOrder.Rdtool
