import FOrder.Serial.Bags
import FOrder.Futurerd.SpBag

/-!
# `Futurerd.Owned` — bags by owner

`Serial.Bags` names a bag by its owner, the tool by a node of a forest. `Owned m h` ties the two together: `h` maps
an owner to the root of its bag, no two owners share one, and the root has the owner's kind. A merge and a change of
owner are then the same step on both sides.

Everything that MultiBags does to its bags is one of three steps: a new bag (`Owned.new`), a bag that changes hands
(`Owned.move`), which covers both a merge into another owner's bag and a P bag that is only given a new place, and a
query, which compresses paths and moves nothing (`Owned.same`). Each of them has a lemma for the owners and one for
the strands (`StrandBags`).

The kind of a bag is read at its root only. `MovedTo` therefore says nothing of the kind fields that are not at a
root but that they are as they were.
-/

namespace FOrder.Futurerd

open Serial (Loc moveBag)

/-- The kind a bag must have for its owner. -/
def kindOf : Loc → BagKind
  | .s _ => .S
  | .p _ => .P
  | .fut _ => .P

/-- The root of each owner's bag, when it has one. -/
abbrev Owner := Loc → Option Nat

/-- One owner's bag is another one. -/
def Owner.set (h : Owner) (l : Loc) (b : Option Nat) : Owner := fun k => if k = l then b else h k

/-- Owners and roots, one to one, and the kinds of the roots. -/
structure Owned (m : Bags) (h : Owner) : Prop where
  wf : m.WF
  inj : ∀ {l l' b}, h l = some b → h l' = some b → l = l'
  lt : ∀ {l b}, h l = some b → b < m.size
  root : ∀ {l b}, h l = some b → m.rep b = b
  kind : ∀ {l b}, h l = some b → m.kind[b]? = some (kindOf l)

/-- The bag stored for each strand is in the bag of the strand's owner. -/
structure StrandBags (m : Bags) (h : Owner) (bags : List Loc) (strands : List Nat) : Prop where
  length : strands.length = bags.length
  bag : ∀ {x u : Nat} {l : Loc}, strands[x]? = some u → bags[x]? = some l → u < m.size ∧ h l = some (m.rep u)

variable {m m' : Bags} {h : Owner} {bags : List Loc} {strands : List Nat}

/-- What a step may do to the forest: the bag of `b` goes into `b'`, nothing else. -/
structure MovedTo (m m' : Bags) (b b' : Nat) (k : BagKind) : Prop where
  wf : m'.WF
  size : m'.size = m.size
  rep : ∀ z, m'.rep z = if m.rep z = b then b' else m.rep z
  kind : ∀ y, y ≠ b' → m'.kind[y]? = m.kind[y]?
  newKind : m'.kind[b']? = some k

/-- **A bag changes hands**: the bag of `l` becomes, or joins, the bag `b'` of `l'`. -/
theorem Owned.move (ho : Owned m h) {l l' : Loc} {b b' : Nat} (hne : l ≠ l') (hl : h l = some b)
    (hl' : (h l' = none ∧ b' = b) ∨ h l' = some b') (hm : MovedTo m m' b b' (kindOf l')) :
    Owned m' ((h.set l none).set l' (some b')) := by
  have hb' : b' < m.size ∧ m.rep b' = b' := by
    rcases hl' with ⟨-, rfl⟩ | hl'
    · exact ⟨ho.lt hl, ho.root hl⟩
    · exact ⟨ho.lt hl', ho.root hl'⟩
  -- an owner of the new map is `l'`, or an owner of the old one other than `l`
  have hcases : ∀ {k c}, ((h.set l none).set l' (some b')) k = some c →
      (k = l' ∧ c = b') ∨ (k ≠ l' ∧ k ≠ l ∧ h k = some c) := by
    intro k c hk
    unfold Owner.set at hk
    split at hk
    · rename_i hkl
      exact Or.inl ⟨hkl, (Option.some.inj hk).symm⟩
    · rename_i hkl'
      split at hk
      · cases hk
      · rename_i hkl
        exact Or.inr ⟨hkl', hkl, hk⟩
  have hother : ∀ {k c}, k ≠ l' → k ≠ l → h k = some c → c ≠ b' ∧ c ≠ b := by
    intro k c hkl' hkl hk
    refine ⟨?_, fun hc => hkl (ho.inj hk (hc ▸ hl))⟩
    rintro rfl
    rcases hl' with ⟨-, rfl⟩ | hl'
    · exact hkl (ho.inj hk hl)
    · exact hkl' (ho.inj hk hl')
  refine ⟨hm.wf, ?_, ?_, ?_, ?_⟩
  · intro k k' c hk hk'
    rcases hcases hk with ⟨hkl, hc⟩ | ⟨h₁, h₂, hold⟩
    · rcases hcases hk' with ⟨hkl', -⟩ | ⟨h₁', h₂', hold'⟩
      · rw [hkl, hkl']
      · exact absurd hc (hother h₁' h₂' hold').1
    · rcases hcases hk' with ⟨-, hc'⟩ | ⟨-, -, hold'⟩
      · exact absurd hc' (hother h₁ h₂ hold).1
      · exact ho.inj hold hold'
  · intro k c hk
    rw [hm.size]
    rcases hcases hk with ⟨-, rfl⟩ | ⟨-, -, hk⟩
    · exact hb'.1
    · exact ho.lt hk
  · intro k c hk
    rw [hm.rep]
    rcases hcases hk with ⟨-, rfl⟩ | ⟨h₁, h₂, hk⟩
    · rw [hb'.2]
      split <;> rfl
    · rw [ho.root hk, if_neg (hother h₁ h₂ hk).2]
  · intro k c hk
    rcases hcases hk with ⟨rfl, rfl⟩ | ⟨h₁, h₂, hk⟩
    · exact hm.newKind
    · rw [hm.kind c (hother h₁ h₂ hk).1]
      exact ho.kind hk

/-- And the strands of that bag are in the bag of `l'`. -/
theorem StrandBags.move (hs : StrandBags m h bags strands) (ho : Owned m h) {l l' : Loc} {b b' : Nat}
    (hne : l ≠ l') (hl : h l = some b) (hl' : (h l' = none ∧ b' = b) ∨ h l' = some b') {k : BagKind}
    (hm : MovedTo m m' b b' k) :
    StrandBags m' ((h.set l none).set l' (some b')) (moveBag l l' bags) strands where
  length := by
    rw [hs.length]
    simp [moveBag]
  bag := by
    intro x u j hu hj
    rw [hm.size, hm.rep]
    rcases Serial.getElem?_moveBag.mp hj with ⟨hxl, hjl'⟩ | ⟨hj, hjl⟩
    · obtain ⟨hlt, hh⟩ := hs.bag hu hxl
      have hrep : m.rep u = b := Option.some.inj (hh.symm.trans hl)
      exact ⟨hlt, by simp [Owner.set, hrep, hjl']⟩
    · obtain ⟨hlt, hh⟩ := hs.bag hu hj
      have hrep : m.rep u ≠ b := fun hr => hjl (ho.inj hh (hr ▸ hl))
      refine ⟨hlt, ?_⟩
      rw [if_neg hrep]
      by_cases hjl' : j = l'
      · subst hjl'
        rcases hl' with ⟨hn, -⟩ | hl'
        · rw [hn] at hh
          cases hh
        · rw [hl'] at hh
          simp [Owner.set, Option.some.inj hh]
      · simp [Owner.set, hjl', hjl, hh]

/-- **A new bag** for an owner that has none. -/
theorem Owned.new (ho : Owned m h) (l : Loc) :
    Owned (m.new (kindOf l)).1 (h.set l (some m.size)) := by
  obtain ⟨hwf, hsize, -, hrep, hself, hold, hkind⟩ := Bags.new_spec ho.wf (kindOf l)
  have hcases : ∀ {k c}, (h.set l (some m.size)) k = some c →
      (k = l ∧ c = m.size) ∨ (k ≠ l ∧ h k = some c) := by
    intro k c hk
    unfold Owner.set at hk
    split at hk
    · rename_i hkl
      exact Or.inl ⟨hkl, (Option.some.inj hk).symm⟩
    · rename_i hkl
      exact Or.inr ⟨hkl, hk⟩
  refine ⟨hwf, ?_, ?_, ?_, ?_⟩
  · intro k k' c hk hk'
    rcases hcases hk with ⟨rfl, rfl⟩ | ⟨-, hk⟩
    · rcases hcases hk' with ⟨rfl, -⟩ | ⟨-, hk'⟩
      · rfl
      · exact absurd (ho.lt hk') (Nat.lt_irrefl _)
    · rcases hcases hk' with ⟨-, rfl⟩ | ⟨-, hk'⟩
      · exact absurd (ho.lt hk) (Nat.lt_irrefl _)
      · exact ho.inj hk hk'
  · intro k c hk
    rw [hsize]
    rcases hcases hk with ⟨-, rfl⟩ | ⟨-, hk⟩
    · exact Nat.lt_succ_self _
    · exact Nat.lt_succ_of_lt (ho.lt hk)
  · intro k c hk
    rw [hrep]
    rcases hcases hk with ⟨-, rfl⟩ | ⟨-, hk⟩
    · exact hself
    · exact ho.root hk
  · intro k c hk
    rcases hcases hk with ⟨rfl, rfl⟩ | ⟨-, hk⟩
    · exact hkind
    · rw [hold c (ho.lt hk)]
      exact ho.kind hk

/-- A strand that starts in a bag of its own. -/
theorem StrandBags.new (hs : StrandBags m h bags strands) (hm : m.WF) {l : Loc}
    (hfree : ∀ x : Nat, bags[x]? ≠ some l) (k : BagKind) :
    StrandBags (m.new k).1 (h.set l (some m.size)) (bags ++ [l]) (strands ++ [m.size]) where
  length := by simp [hs.length]
  bag := by
    intro x u j hu hj
    obtain ⟨-, hsize, -, hrep, hself, -, -⟩ := Bags.new_spec hm k
    rw [hsize, hrep]
    rcases Serial.getElem?_concat.mp hj with hold | ⟨rfl, rfl⟩
    · have hx : x < strands.length := by
        rw [hs.length]
        exact (List.getElem?_eq_some_iff.mp hold).1
      rw [List.getElem?_append_left hx] at hu
      obtain ⟨hlt, hh⟩ := hs.bag hu hold
      have hne : j ≠ l := by
        rintro rfl
        exact hfree x hold
      exact ⟨Nat.lt_succ_of_lt hlt, by simp [Owner.set, hne, hh]⟩
    · obtain rfl : m.size = u := by
        rw [← hs.length] at hu
        simpa using hu
      exact ⟨Nat.lt_succ_self _, by simp [Owner.set, hself]⟩

/-- A strand starts in a bag that is there. -/
theorem StrandBags.concat (hs : StrandBags m h bags strands) {l : Loc} {b : Nat} (ho : Owned m h)
    (hl : h l = some b) : StrandBags m h (bags ++ [l]) (strands ++ [b]) where
  length := by simp [hs.length]
  bag := by
    intro x u j hu hj
    rcases Serial.getElem?_concat.mp hj with hj | ⟨rfl, rfl⟩
    · have hx : x < strands.length := by
        rw [hs.length]
        exact (List.getElem?_eq_some_iff.mp hj).1
      rw [List.getElem?_append_left hx] at hu
      exact hs.bag hu hj
    · obtain rfl : b = u := by
        rw [← hs.length] at hu
        simpa using hu
      exact ⟨ho.lt hl, by rw [ho.root hl]; exact hl⟩

/-- Shorter paths change no owner's bag. -/
theorem Owned.same (ho : Owned m h) (hm : m.Same m') : Owned m' h where
  wf := hm.wf
  inj := ho.inj
  lt hl := by
    rw [hm.size]
    exact ho.lt hl
  root hl := by
    rw [hm.rep]
    exact ho.root hl
  kind hl := by
    rw [hm.kind]
    exact ho.kind hl

/-- Nor where a strand is. -/
theorem StrandBags.same (hs : StrandBags m h bags strands) (hm : m.Same m') :
    StrandBags m' h bags strands where
  length := hs.length
  bag hu hl := by
    rw [hm.size, hm.rep]
    exact hs.bag hu hl

/-- **The answer**: a query sees an S bag exactly when the owner is one of an S bag. -/
theorem StrandBags.precedesNow (hs : StrandBags m h bags strands) (ho : Owned m h) {x u : Nat} {l : Loc}
    (hu : strands[x]? = some u) (hl : bags[x]? = some l) :
    ∃ m', m.precedesNow u = some (m', decide (kindOf l = .S)) ∧ m.Same m' := by
  obtain ⟨hlt, hh⟩ := hs.bag hu hl
  exact Bags.precedesNow_spec ho.wf hlt (ho.kind hh)

/-- `merge` of two owned bags. -/
theorem Owned.merge (ho : Owned m h) {l l' : Loc} {b b' : Nat} (hl : h l = some b)
    (hl' : h l' = some b') : ∃ m', m.merge b' b = some m' ∧ MovedTo m m' b b' (kindOf l') := by
  obtain ⟨m', hrun, hwf, hsize, hrep, hother, hself⟩ := Bags.merge_spec ho.wf (ho.lt hl') (ho.lt hl)
  rw [ho.root hl'] at hrep hother hself
  rw [ho.root hl] at hrep
  exact ⟨m', hrun, hwf, hsize, hrep, hother, hself.trans (ho.kind hl')⟩

/-- `find(x)->set_kind(k)` on a root. -/
theorem MovedTo.find_setKind {b b' : Nat} {k : BagKind} (hm : MovedTo m m' b b' k) (k' : BagKind)
    (hb' : b' < m.size) (hroot : m'.rep b' = b') :
    ∃ m₁, m'.find b' = some (m₁, b') ∧ MovedTo m (m₁.setKind b' k') b b' k' := by
  have hlt : b' < m'.size := by
    rw [hm.size]
    exact hb'
  obtain ⟨m₁, hfind, ⟨hwf₁, hsize₁, hrep₁, hkind₁⟩⟩ := Bags.find_spec hm.wf hlt
  rw [hroot] at hfind
  have hlt₁ : b' < m₁.size := by
    rw [hsize₁]
    exact hlt
  obtain ⟨hwf, hsize, hrep, hother, hself⟩ := Bags.setKind_spec hwf₁ hlt₁ k'
  refine ⟨m₁, hfind, hwf, ?_, ?_, ?_, hself⟩
  · rw [hsize, hsize₁, hm.size]
  · intro z
    rw [hrep, hrep₁, hm.rep]
  · intro y hy
    rw [hother y hy, hkind₁, hm.kind y hy]

/-- Nothing has moved yet. -/
theorem Owned.stay (ho : Owned m h) {l : Loc} {b : Nat} (hl : h l = some b) :
    MovedTo m m b b (kindOf l) := by
  refine ⟨ho.wf, rfl, ?_, fun _ _ => rfl, ho.kind hl⟩
  intro z
  split
  · assumption
  · rfl

end FOrder.Futurerd
