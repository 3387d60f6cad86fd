import Mathlib.Data.List.Basic
import Mathlib.Tactic.Common

/-!
# `Lib.SortedList` — merging and searching lists that are kept in order

Both loops take the comparison as an `Ordering`, so one definition serves lists ordered by numbers and lists ordered
by a query to an order structure.

`mergeBy` is structural in its first list, and `mergeRow` in its second; `mergeBy_cons_cons` is the equation one
would write. What comes out is said twice: for any lists and any comparison, as far as it can be said
(`mergeBy_from`, `mergeBy_covers`, `length_mergeBy`), and exactly, for sorted lists and a comparison of keys
(`mem_mergeBy`, `SortedBy.mergeBy`). `KeyOrder` is relative to a set of members, since a comparison that asks an
order structure is an order on what is in it only.

`binSearch` needs no sorted list: it is enough that the test points towards one position.
-/

namespace FOrder

variable {α : Type}

/-! ## Merging

The walk along two lists, with any comparison and any way to join two members that compare equal. What can be said
without any order is said here: where the members come from, and that none is lost. -/

/-- One row of the merge: `x` is the head of the first list and `rest` merges its tail. -/
def mergeRow (cmp : α → α → Ordering) (join : α → α → α) (x : α) (rest : List α → List α) : List α → List α
  | [] => x :: rest []
  | y :: ys =>
      match cmp x y with
      | .lt => x :: rest (y :: ys)
      | .eq => join x y :: rest ys
      | .gt => y :: mergeRow cmp join x rest ys

/-- Walk two lists together: the smaller head is taken, equal heads are joined. -/
def mergeBy (cmp : α → α → Ordering) (join : α → α → α) : List α → List α → List α
  | [], ys => ys
  | x :: xs, ys => mergeRow cmp join x (mergeBy cmp join xs) ys

variable {cmp : α → α → Ordering} {join : α → α → α}

/-- Where a member of a merged list comes from. -/
def MergedFrom (cmp : α → α → Ordering) (join : α → α → α) (xs ys : List α) (z : α) : Prop :=
  z ∈ xs ∨ z ∈ ys ∨ ∃ x ∈ xs, ∃ y ∈ ys, cmp x y = .eq ∧ z = join x y

/-- Longer lists have more. -/
theorem MergedFrom.mono {xs ys xs' ys' : List α} {z : α} (h : MergedFrom cmp join xs ys z)
    (hx : ∀ x ∈ xs, x ∈ xs') (hy : ∀ y ∈ ys, y ∈ ys') : MergedFrom cmp join xs' ys' z := by
  rcases h with h | h | ⟨x, hxm, y, hym, hc, hj⟩
  · exact Or.inl (hx z h)
  · exact Or.inr (Or.inl (hy z h))
  · exact Or.inr (Or.inr ⟨x, hx x hxm, y, hy y hym, hc, hj⟩)

/-- One row, when the rest is right. -/
theorem mergeRow_from {x : α} {xs : List α} {z : α} {rest : List α → List α}
    (hrest : ∀ ys, z ∈ rest ys → MergedFrom cmp join xs ys z) {ys : List α}
    (h : z ∈ mergeRow cmp join x rest ys) : MergedFrom cmp join (x :: xs) ys z := by
  induction ys with
  | nil =>
      rcases List.mem_cons.mp h with rfl | h
      · exact Or.inl List.mem_cons_self
      · exact (hrest [] h).mono (fun _ => List.mem_cons_of_mem _) (fun _ => id)
  | cons y ys ih =>
      unfold mergeRow at h
      split at h
      · rcases List.mem_cons.mp h with rfl | h
        · exact Or.inl List.mem_cons_self
        · exact (hrest _ h).mono (fun _ => List.mem_cons_of_mem _) (fun _ => id)
      · rename_i hc
        rcases List.mem_cons.mp h with hj | h
        · exact Or.inr (Or.inr ⟨x, List.mem_cons_self, y, List.mem_cons_self, hc, hj⟩)
        · exact (hrest _ h).mono (fun _ => List.mem_cons_of_mem _) (fun _ => List.mem_cons_of_mem _)
      · rcases List.mem_cons.mp h with rfl | h
        · exact Or.inr (Or.inl List.mem_cons_self)
        · exact (ih h).mono (fun _ => id) (fun _ => List.mem_cons_of_mem _)

/-- **A merged list** has the members of both, and joins of them. -/
theorem mergeBy_from {xs ys : List α} {z : α} (h : z ∈ mergeBy cmp join xs ys) :
    MergedFrom cmp join xs ys z := by
  induction xs generalizing ys with
  | nil => exact Or.inr (Or.inl h)
  | cons x xs ih => exact mergeRow_from (fun _ => ih) h

/-- The second list is used up. -/
theorem mergeBy_nil_right (xs : List α) : mergeBy cmp join xs [] = xs := by
  induction xs with
  | nil => rfl
  | cons x xs ih => exact congrArg (x :: ·) ih

/-- **The equation of the loop**: the smaller head, or the join of the heads. -/
theorem mergeBy_cons_cons (x y : α) (xs ys : List α) : mergeBy cmp join (x :: xs) (y :: ys) =
    match cmp x y with
    | .lt => x :: mergeBy cmp join xs (y :: ys)
    | .eq => join x y :: mergeBy cmp join xs ys
    | .gt => y :: mergeBy cmp join (x :: xs) ys := rfl

/-- Every member is there, alone or in a join; the lists need not be sorted. -/
theorem mergeBy_covers (xs ys : List α) :
    (∀ x ∈ xs, x ∈ mergeBy cmp join xs ys ∨ ∃ y, cmp x y = .eq ∧ join x y ∈ mergeBy cmp join xs ys) ∧
      ∀ y ∈ ys, y ∈ mergeBy cmp join xs ys ∨ ∃ x, cmp x y = .eq ∧ join x y ∈ mergeBy cmp join xs ys := by
  induction xs generalizing ys with
  | nil => exact ⟨fun x hx => (List.not_mem_nil hx).elim, fun y hy => Or.inl hy⟩
  | cons x xs ihx =>
      have hcons : ∀ {a c : α} {l : List α} {P : α → Prop} {f : α → α},
          (c ∈ l ∨ ∃ z, P z ∧ f z ∈ l) → c ∈ a :: l ∨ ∃ z, P z ∧ f z ∈ a :: l := by
        rintro a c l P f (hc | ⟨z, hz, hf⟩)
        · exact Or.inl (List.mem_cons_of_mem a hc)
        · exact Or.inr ⟨z, hz, List.mem_cons_of_mem a hf⟩
      induction ys with
      | nil =>
          rw [mergeBy_nil_right]
          exact ⟨fun z hz => Or.inl hz, fun y hy => (List.not_mem_nil hy).elim⟩
      | cons y ys ihy =>
          rw [mergeBy_cons_cons]
          cases hc : cmp x y with
          | lt =>
              obtain ⟨hx, hy⟩ := ihx (y :: ys)
              refine ⟨List.forall_mem_cons.mpr ⟨Or.inl List.mem_cons_self, ?_⟩, ?_⟩
              · exact fun z hz => hcons (hx z hz)
              · exact fun z hz => hcons (hy z hz)
          | eq =>
              obtain ⟨hx, hy⟩ := ihx ys
              refine ⟨List.forall_mem_cons.mpr ⟨Or.inr ⟨y, hc, List.mem_cons_self⟩, ?_⟩,
                List.forall_mem_cons.mpr ⟨Or.inr ⟨x, hc, List.mem_cons_self⟩, ?_⟩⟩
              · exact fun z hz => hcons (hx z hz)
              · exact fun z hz => hcons (hy z hz)
          | gt =>
              obtain ⟨hx, hy⟩ := ihy
              refine ⟨?_, List.forall_mem_cons.mpr ⟨Or.inl List.mem_cons_self, ?_⟩⟩
              · exact fun z hz => hcons (hx z hz)
              · exact fun z hz => hcons (hy z hz)

/-- One row of `matched`. -/
def matchRow (cmp : α → α → Ordering) (x : α) (rest : List α → List (α × α)) : List α → List (α × α)
  | [] => rest []
  | y :: ys =>
      match cmp x y with
      | .lt => rest (y :: ys)
      | .eq => (x, y) :: rest ys
      | .gt => matchRow cmp x rest ys

/-- The pairs that a merge joins. -/
def matched (cmp : α → α → Ordering) : List α → List α → List (α × α)
  | [], _ => []
  | x :: xs, ys => matchRow cmp x (matched cmp xs) ys

/-- Nothing is joined with an empty list. -/
theorem matched_nil_right (xs : List α) : matched cmp xs [] = [] := by
  induction xs with
  | nil => rfl
  | cons x xs ih => exact ih

/-- The same equation for the pairs. -/
theorem matched_cons_cons (x y : α) (xs ys : List α) : matched cmp (x :: xs) (y :: ys) =
    match cmp x y with
    | .lt => matched cmp xs (y :: ys)
    | .eq => (x, y) :: matched cmp xs ys
    | .gt => matched cmp (x :: xs) ys := rfl

/-- Two members become one when they are joined. -/
theorem length_mergeBy (xs ys : List α) :
    (mergeBy cmp join xs ys).length + (matched cmp xs ys).length = xs.length + ys.length := by
  induction xs generalizing ys with
  | nil => exact Nat.add_comm _ _
  | cons x xs ihx =>
      induction ys with
      | nil =>
          rw [mergeBy_nil_right, matched_nil_right]
          rfl
      | cons y ys ihy =>
          rw [mergeBy_cons_cons, matched_cons_cons]
          cases cmp x y with
          | lt =>
              have hx := ihx (y :: ys)
              simp only [List.length_cons] at hx ⊢
              omega
          | eq =>
              have hx := ihx ys
              simp only [List.length_cons] at hx ⊢
              omega
          | gt =>
              simp only [List.length_cons] at ihy ⊢
              omega

/-! ## Merging lists that are sorted

With a comparison by a key the result is sorted, and a member of one list is in it as it was, unless the other list
has one with the same key. -/

/-- A comparison that orders the members of `s` by some key, and a join that keeps the key. -/
structure KeyOrder (s : α → Prop) (cmp : α → α → Ordering) (join : α → α → α) : Prop where
  irrefl : ∀ {x}, s x → cmp x x ≠ .lt
  trans : ∀ {x y z}, s x → s y → s z → cmp x y = .lt → cmp y z = .lt → cmp x z = .lt
  swap : ∀ {x y}, s x → s y → cmp x y = .gt → cmp y x = .lt
  left : ∀ {x y z}, s x → s y → s z → cmp x y = .eq → (cmp x z = .lt ↔ cmp y z = .lt)
  right : ∀ {x y z}, s x → s y → s z → cmp x y = .eq → (cmp z x = .lt ↔ cmp z y = .lt)
  member : ∀ {x y}, s x → s y → cmp x y = .eq → s (join x y)
  joinLeft : ∀ {x y z}, s x → s y → s z → cmp x y = .eq → (cmp (join x y) z = .lt ↔ cmp x z = .lt)
  joinRight : ∀ {x y z}, s x → s y → s z → cmp x y = .eq → (cmp z (join x y) = .lt ↔ cmp z x = .lt)

/-- Strictly sorted members of `s`. -/
structure SortedBy (s : α → Prop) (cmp : α → α → Ordering) (xs : List α) : Prop where
  mem : ∀ x ∈ xs, s x
  sorted : xs.Pairwise fun x y => cmp x y = .lt

section KeyOrder

variable {s : α → Prop}

/-- A sorted list stays sorted without its head. -/
theorem SortedBy.tail {x : α} {xs : List α} (h : SortedBy s cmp (x :: xs)) : SortedBy s cmp xs :=
  ⟨fun y hy => h.mem y (List.mem_cons_of_mem x hy), (List.pairwise_cons.mp h.sorted).2⟩

/-- The head of a sorted list is before all the rest. -/
theorem SortedBy.head {x : α} {xs : List α} (h : SortedBy s cmp (x :: xs)) : s x ∧ ∀ y ∈ xs, cmp x y = .lt :=
  ⟨h.mem x List.mem_cons_self, (List.pairwise_cons.mp h.sorted).1⟩

/-- A member before the head of a sorted list is before all of it. -/
theorem SortedBy.lt_all (ho : KeyOrder s cmp join) {x y : α} {ys : List α} (hy : SortedBy s cmp (y :: ys))
    (hx : s x) (hxy : cmp x y = .lt) : ∀ z ∈ y :: ys, cmp x z = .lt := by
  intro z hz
  rcases List.mem_cons.mp hz with rfl | hz
  · exact hxy
  · exact ho.trans hx (hy.mem y List.mem_cons_self) (hy.mem z (List.mem_cons_of_mem y hz)) hxy (hy.head.2 z hz)

/-- Members in order do not compare equal, either way round. -/
theorem KeyOrder.ne_of_lt (ho : KeyOrder s cmp join) {x y : α} (hx : s x) (hy : s y) (h : cmp x y = .lt) :
    cmp x y ≠ .eq ∧ cmp y x ≠ .eq := by
  constructor
  · rw [h]
    decide
  · intro heq
    exact ho.irrefl hx ((ho.right hy hx hx heq).mp h)

/-- The head of the one list against the tail of the other, when the heads compare equal. -/
theorem SortedBy.tail_ne (ho : KeyOrder s cmp join) {x y : α} {xs ys : List α} (hx : SortedBy s cmp (x :: xs))
    (hy : SortedBy s cmp (y :: ys)) (hxy : cmp x y = .eq) :
    (∀ z ∈ ys, cmp x z = .lt) ∧ ∀ z ∈ xs, cmp y z = .lt := by
  obtain ⟨hsx, hxlt⟩ := hx.head
  obtain ⟨hsy, hylt⟩ := hy.head
  constructor
  · intro z hz
    exact (ho.left hsx hsy (hy.tail.mem z hz) hxy).mpr (hylt z hz)
  · intro z hz
    exact (ho.left hsx hsy (hx.tail.mem z hz) hxy).mp (hxlt z hz)

/-- **What a merge of sorted lists has**: the members that occur in one list only, and the joins. -/
theorem mem_mergeBy (ho : KeyOrder s cmp join) {xs ys : List α} (hx : SortedBy s cmp xs) (hy : SortedBy s cmp ys)
    {z : α} : z ∈ mergeBy cmp join xs ys ↔
      (z ∈ xs ∧ ∀ y ∈ ys, cmp z y ≠ .eq) ∨ (z ∈ ys ∧ ∀ x ∈ xs, cmp x z ≠ .eq) ∨
        ∃ x ∈ xs, ∃ y ∈ ys, cmp x y = .eq ∧ z = join x y := by
  induction xs generalizing ys with
  | nil => simp [mergeBy]
  | cons x xs ihx =>
      induction ys with
      | nil => simp [mergeBy_nil_right]
      | cons y ys ihy =>
          obtain ⟨hsx, hxlt⟩ := hx.head
          obtain ⟨hsy, hylt⟩ := hy.head
          rw [mergeBy_cons_cons]
          cases hc : cmp x y with
          | lt =>
              -- `x` is before all of the other list
              have hall : ∀ z ∈ y :: ys, cmp x z ≠ .eq := fun z hz =>
                (ho.ne_of_lt hsx (hy.mem z hz) (hy.lt_all ho hsx hc z hz)).1
              dsimp only
              rw [List.mem_cons, ihx hx.tail hy]
              constructor
              · rintro (rfl | ⟨hz, hne⟩ | ⟨hz, hne⟩ | ⟨x', hx', y', hy', heq, rfl⟩)
                · exact Or.inl ⟨List.mem_cons_self, hall⟩
                · exact Or.inl ⟨List.mem_cons_of_mem x hz, hne⟩
                · exact Or.inr (Or.inl ⟨hz, List.forall_mem_cons.mpr ⟨hall z hz, hne⟩⟩)
                · exact Or.inr (Or.inr ⟨x', List.mem_cons_of_mem x hx', y', hy', heq, rfl⟩)
              · rintro (⟨hz, hne⟩ | ⟨hz, hne⟩ | ⟨x', hx', y', hy', heq, rfl⟩)
                · exact (List.mem_cons.mp hz).imp id fun hz => Or.inl ⟨hz, hne⟩
                · exact Or.inr (Or.inr (Or.inl ⟨hz, fun x' hx' => hne x' (List.mem_cons_of_mem x hx')⟩))
                · rcases List.mem_cons.mp hx' with rfl | hx'
                  · exact absurd heq (hall y' hy')
                  · exact Or.inr (Or.inr (Or.inr ⟨x', hx', y', hy', heq, rfl⟩))
          | eq =>
              obtain ⟨hxys, hyxs⟩ := hx.tail_ne ho hy hc
              have hxne : ∀ z ∈ ys, cmp x z ≠ .eq := fun z hz =>
                (ho.ne_of_lt hsx (hy.tail.mem z hz) (hxys z hz)).1
              have hyne : ∀ z ∈ xs, cmp z y ≠ .eq := fun z hz =>
                (ho.ne_of_lt hsy (hx.tail.mem z hz) (hyxs z hz)).2
              dsimp only
              rw [List.mem_cons, ihx hx.tail hy.tail]
              constructor
              · rintro (rfl | ⟨hz, hne⟩ | ⟨hz, hne⟩ | ⟨x', hx', y', hy', heq, rfl⟩)
                · exact Or.inr (Or.inr ⟨x, List.mem_cons_self, y, List.mem_cons_self, hc, rfl⟩)
                · exact Or.inl ⟨List.mem_cons_of_mem x hz, List.forall_mem_cons.mpr ⟨hyne z hz, hne⟩⟩
                · exact Or.inr (Or.inl ⟨List.mem_cons_of_mem y hz, List.forall_mem_cons.mpr ⟨hxne z hz, hne⟩⟩)
                · exact Or.inr (Or.inr
                    ⟨x', List.mem_cons_of_mem x hx', y', List.mem_cons_of_mem y hy', heq, rfl⟩)
              · rintro (⟨hz, hne⟩ | ⟨hz, hne⟩ | ⟨x', hx', y', hy', heq, rfl⟩)
                · rcases List.mem_cons.mp hz with rfl | hz
                  · exact absurd hc (hne y List.mem_cons_self)
                  · exact Or.inr (Or.inl ⟨hz, fun y' hy' => hne y' (List.mem_cons_of_mem y hy')⟩)
                · rcases List.mem_cons.mp hz with rfl | hz
                  · exact absurd hc (hne x List.mem_cons_self)
                  · exact Or.inr (Or.inr (Or.inl ⟨hz, fun x' hx' => hne x' (List.mem_cons_of_mem x hx')⟩))
                · rcases List.mem_cons.mp hx' with rfl | hx'
                  · rcases List.mem_cons.mp hy' with rfl | hy'
                    · exact Or.inl rfl
                    · exact absurd heq (hxne y' hy')
                  · rcases List.mem_cons.mp hy' with rfl | hy'
                    · exact absurd heq (hyne x' hx')
                    · exact Or.inr (Or.inr (Or.inr ⟨x', hx', y', hy', heq, rfl⟩))
          | gt =>
              -- `y` is before all of the first list
              have hall : ∀ z ∈ x :: xs, cmp z y ≠ .eq := fun z hz =>
                (ho.ne_of_lt hsy (hx.mem z hz) (hx.lt_all ho hsy (ho.swap hsx hsy hc) z hz)).2
              dsimp only
              rw [List.mem_cons, ihy hy.tail]
              constructor
              · rintro (rfl | ⟨hz, hne⟩ | ⟨hz, hne⟩ | ⟨x', hx', y', hy', heq, rfl⟩)
                · exact Or.inr (Or.inl ⟨List.mem_cons_self, hall⟩)
                · exact Or.inl ⟨hz, List.forall_mem_cons.mpr ⟨hall z hz, hne⟩⟩
                · exact Or.inr (Or.inl ⟨List.mem_cons_of_mem y hz, hne⟩)
                · exact Or.inr (Or.inr ⟨x', hx', y', List.mem_cons_of_mem y hy', heq, rfl⟩)
              · rintro (⟨hz, hne⟩ | ⟨hz, hne⟩ | ⟨x', hx', y', hy', heq, rfl⟩)
                · exact Or.inr (Or.inl ⟨hz, fun y' hy' => hne y' (List.mem_cons_of_mem y hy')⟩)
                · exact (List.mem_cons.mp hz).imp id fun hz => Or.inr (Or.inl ⟨hz, hne⟩)
                · rcases List.mem_cons.mp hy' with rfl | hy'
                  · exact absurd heq (hall x' hx')
                  · exact Or.inr (Or.inr (Or.inr ⟨x', hx', y', hy', heq, rfl⟩))

/-- A member before all of two lists is before all of their merge. -/
theorem lt_mergeBy (ho : KeyOrder s cmp join) {xs ys : List α} {a : α} (ha : s a)
    (hx : ∀ x ∈ xs, s x ∧ cmp a x = .lt) (hy : ∀ y ∈ ys, s y ∧ cmp a y = .lt) :
    ∀ z ∈ mergeBy cmp join xs ys, s z ∧ cmp a z = .lt := by
  intro z hz
  rcases mergeBy_from hz with hz | hz | ⟨x, hxm, y, hym, heq, rfl⟩
  · exact hx z hz
  · exact hy z hz
  · obtain ⟨hsx, hlt⟩ := hx x hxm
    obtain ⟨hsy, -⟩ := hy y hym
    exact ⟨ho.member hsx hsy heq, (ho.joinRight hsx hsy ha heq).mpr hlt⟩

/-- **A merge of sorted lists is sorted.** -/
theorem SortedBy.mergeBy (ho : KeyOrder s cmp join) {xs ys : List α} (hx : SortedBy s cmp xs)
    (hy : SortedBy s cmp ys) : SortedBy s cmp (mergeBy cmp join xs ys) := by
  have hcons : ∀ {a : α} {l : List α}, s a → (∀ z ∈ l, cmp a z = .lt) → SortedBy s cmp l →
      SortedBy s cmp (a :: l) := fun ha hlt hl =>
    ⟨List.forall_mem_cons.mpr ⟨ha, hl.mem⟩, List.pairwise_cons.mpr ⟨hlt, hl.sorted⟩⟩
  induction xs generalizing ys with
  | nil => exact hy
  | cons x xs ihx =>
      induction ys with
      | nil =>
          rw [mergeBy_nil_right]
          exact hx
      | cons y ys ihy =>
          obtain ⟨hsx, hxlt⟩ := hx.head
          obtain ⟨hsy, hylt⟩ := hy.head
          rw [mergeBy_cons_cons]
          cases hc : cmp x y with
          | lt =>
              have hlt := lt_mergeBy ho hsx (fun z hz => ⟨hx.tail.mem z hz, hxlt z hz⟩)
                (fun z hz => ⟨hy.mem z hz, hy.lt_all ho hsx hc z hz⟩)
              exact hcons hsx (fun z hz => (hlt z hz).2) (ihx hx.tail hy)
          | eq =>
              obtain ⟨hxys, -⟩ := hx.tail_ne ho hy hc
              have hlt := lt_mergeBy ho hsx (fun z hz => ⟨hx.tail.mem z hz, hxlt z hz⟩)
                (fun z hz => ⟨hy.tail.mem z hz, hxys z hz⟩)
              refine hcons (ho.member hsx hsy hc) ?_ (ihx hx.tail hy.tail)
              intro z hz
              exact (ho.joinLeft hsx hsy (hlt z hz).1 hc).mpr (hlt z hz).2
          | gt =>
              have hyx := ho.swap hsx hsy hc
              have hlt := lt_mergeBy ho hsy (fun z hz => ⟨hx.mem z hz, hx.lt_all ho hsy hyx z hz⟩)
                (fun z hz => ⟨hy.tail.mem z hz, hylt z hz⟩)
              exact hcons hsy (fun z hz => (hlt z hz).2) (ihy hy.tail)

end KeyOrder

/-- A comparison of keys, on the members of `s`. -/
structure StrictWeakOn (s : α → Prop) (prec : α → α → Bool) : Prop where
  irrefl : ∀ x, s x → prec x x = false
  trans : ∀ {x y z}, s x → s y → s z → prec x y = true → prec y z = true → prec x z = true
  between : ∀ {x y z}, s x → s y → s z → prec x z = true → prec x y = true ∨ prec y z = true

/-- To compare by a number is such a comparison. -/
theorem strictWeakOn_key (s : α → Prop) (key : α → Nat) :
    StrictWeakOn s fun x y => decide (key x < key y) where
  irrefl x _ := by simp
  trans _ _ _ hxy hyz := by
    rw [decide_eq_true_eq] at hxy hyz ⊢
    exact Nat.lt_trans hxy hyz
  between {x y z} _ _ _ hxz := by
    rw [decide_eq_true_eq] at hxz
    rcases Nat.lt_or_ge (key x) (key y) with hxy | hyx
    · exact Or.inl (decide_eq_true hxy)
    · exact Or.inr (decide_eq_true (Nat.lt_of_le_of_lt hyx hxz))

/-! ## Binary search

The test may be anything that says on which side to go on. If it points towards one place from everywhere, the search
gets there. -/

/-- The index looked at in `low, …, high - 1`. -/
def midpoint (low high : Nat) : Nat := low + (high - 1 - low) / 2

/-- Binary search in `xs[low], …, xs[high - 1]`: `test` stops at a member, or says on which side of it the
    search goes on (`.lt`: the member comes before). `fuel` bounds the length of the range. -/
def binSearch (test : α → Ordering) (xs : List α) : Nat → Nat → Nat → Option α
  | 0, _, _ => none
  | fuel + 1, low, high =>
      if low < high then
        match xs[midpoint low high]? with
        | none => none
        | some x =>
            match test x with
            | .eq => some x
            | .lt => binSearch test xs fuel (midpoint low high + 1) high
            | .gt => binSearch test xs fuel low (midpoint low high)
      else none

variable {test : α → Ordering} {xs : List α}

/-- What a search finds is a member that stops it. -/
theorem binSearch_some {fuel low high : Nat} {x : α} (h : binSearch test xs fuel low high = some x) :
    x ∈ xs ∧ test x = .eq := by
  induction fuel generalizing low high with
  | zero => cases h
  | succ fuel ih =>
      unfold binSearch at h
      split at h
      · split at h
        · cases h
        · rename_i y hy
          split at h
          · rename_i ht
            cases h
            exact ⟨List.mem_of_getElem? hy, ht⟩
          · exact ih h
          · exact ih h
      · cases h

/-- **A search that always goes towards position `j` stops at a member.** -/
theorem binSearch_isSome {j : Nat}
    (hdir : ∀ i x, xs[i]? = some x → (test x = .lt → i < j) ∧ (test x = .gt → j < i)) :
    ∀ {fuel low high : Nat}, low ≤ j → j < high → high ≤ xs.length → high - low < fuel →
      (binSearch test xs fuel low high).isSome = true := by
  intro fuel
  induction fuel with
  | zero => exact fun _ _ _ hfuel => absurd hfuel (Nat.not_lt_zero _)
  | succ fuel ih =>
      intro low high hlow hhigh hlen hfuel
      have hmid : low ≤ midpoint low high ∧ midpoint low high < high := by
        unfold midpoint
        omega
      obtain ⟨x, hx⟩ : ∃ x, xs[midpoint low high]? = some x :=
        ⟨_, List.getElem?_eq_getElem (Nat.lt_of_lt_of_le hmid.2 hlen)⟩
      obtain ⟨hlt, hgt⟩ := hdir _ x hx
      unfold binSearch
      rw [if_pos (Nat.lt_of_le_of_lt hlow hhigh), hx]
      cases htest : test x with
      | eq => simp [htest]
      | lt =>
          simp only [htest]
          have hj := hlt htest
          exact ih hj hhigh hlen (by omega)
      | gt =>
          simp only [htest]
          have hj := hgt htest
          exact ih hlow hj (by omega) (by omega)

end FOrder
