import Mathlib.Data.List.Basic
import Mathlib.Order.Lattice
import Mathlib.Order.MinMax
import Mathlib.Order.Defs.LinearOrder
import Mathlib.Tactic.Common

/-!
# `Lib.Streaks` — sets as rows of half-open streaks

A set over a linear order is given by the streaks it consists of, from left to right. `sweep` goes over two of them
side by side and puts together what overlaps, until one of them is used up; `squish` joins the streaks that touch.
The union is the one after the other.

`sweep` is in one of two modes. Without a group it takes the streak that ends first, if the other row starts behind
it, or opens a group with two streaks that overlap. With a group it takes streaks that start in the group, from the
first row as long as there are any, and closes the group when neither row has one. `sweep_induct` has a case for
each of these, and the theorems about a sweep are inductions by it: that it is ordered, that it covers what the two
rows cover, and that one row is used up.

A sweep does not join streaks that only touch. This is left to `squishFrom`, whose result has gaps.
-/

namespace FOrder

/-- The elements from `start` on, before `stop`. -/
structure Streak (α : Type) where
  start : α
  stop : α
  deriving DecidableEq

namespace Streak

variable {α : Type} {r s : Streak α} {l l' as bs : List (Streak α)}

/-- The starts and the stops of a row. -/
def flat : List (Streak α) → List α
  | [] => []
  | r :: l => r.start :: r.stop :: flat l

/-- The streaks that a list of bounds gives. -/
def unflat : List α → List (Streak α)
  | p :: q :: xs => ⟨p, q⟩ :: unflat xs
  | _ => []

@[simp] theorem flat_nil : flat ([] : List (Streak α)) = [] := rfl

@[simp] theorem flat_cons : flat (r :: l) = r.start :: r.stop :: flat l := rfl

/-- The bounds of two rows. -/
theorem flat_append : flat (l ++ l') = flat l ++ flat l' := by
  induction l with
  | nil => rfl
  | cons r l ih => rw [List.cons_append, flat_cons, flat_cons, ih, List.cons_append, List.cons_append]

@[simp] theorem length_flat : (flat l).length = 2 * l.length := by
  induction l with
  | nil => rfl
  | cons r l ih =>
      rw [flat_cons, List.length_cons, List.length_cons, List.length_cons, ih]
      omega

/-- Dropping streaks drops their bounds. -/
theorem flat_drop (n : Nat) : (flat l).drop (2 * n) = flat (l.drop n) := by
  induction l generalizing n with
  | nil => rw [flat_nil, List.drop_nil, List.drop_nil, flat_nil]
  | cons r l ih =>
      cases n with
      | zero => rfl
      | succ n => exact ih n

/-- The last bound of a row is a stop. -/
theorem exists_getLast?_flat (h : l ≠ []) : ∃ r ∈ l, (flat l).getLast? = some r.stop := by
  obtain ⟨l, r, rfl⟩ := (List.eq_nil_or_concat l).resolve_left h
  rw [List.concat_eq_append]
  refine ⟨r, List.mem_append_right _ (List.mem_singleton.mpr rfl), ?_⟩
  rw [flat_append]
  exact List.getLast?_append_of_ne_nil _ (List.cons_ne_nil _ _)

/-- A list of an even number of bounds is a row. -/
theorem flat_unflat (xs : List α) (h : xs.length % 2 = 0) : flat (unflat xs) = xs := by
  induction xs using unflat.induct with
  | case1 p q xs ih =>
      rw [unflat, flat_cons, ih]
      rw [List.length_cons, List.length_cons] at h
      omega
  | case2 xs hxs =>
      match xs with
      | [] => rfl
      | [p] => cases h
      | p :: q :: xs => exact absurd rfl (hxs p q xs)

/-- The bounds are starts and stops. -/
theorem mem_flat {x : α} : x ∈ flat l ↔ ∃ r ∈ l, x = r.start ∨ x = r.stop := by
  induction l with
  | nil => simp
  | cons r l ih => rw [flat_cons, List.mem_cons, List.mem_cons, ih, List.exists_mem_cons_iff, or_assoc]

/-- Starts are at even places. -/
theorem flat_getElem?_start (i : Nat) : (flat l)[2 * i]? = l[i]?.map Streak.start := by
  induction l generalizing i with
  | nil => rfl
  | cons r l ih =>
      cases i with
      | zero => rfl
      | succ i => exact ih i

/-- Stops are at odd places. -/
theorem flat_getElem?_stop (i : Nat) : (flat l)[2 * i + 1]? = l[i]?.map Streak.stop := by
  induction l generalizing i with
  | nil => rfl
  | cons r l ih =>
      cases i with
      | zero => rfl
      | succ i => exact ih i

variable [LinearOrder α]

/-- `x` is in the streak. -/
def Has (r : Streak α) (x : α) : Prop := r.start ≤ x ∧ x < r.stop

/-- The set that a row denotes. -/
def Covers (l : List (Streak α)) (x : α) : Prop := ∃ r ∈ l, r.Has x

theorem not_covers_nil (x : α) : ¬Covers [] x := fun h => nomatch h

theorem covers_cons {x : α} : Covers (r :: l) x ↔ r.Has x ∨ Covers l x := List.exists_mem_cons_iff _ _ _

/-! ## Rows

A row is a list of streaks from left to right. Two kinds of it are needed: with a gap between any two, as a set has
them, and with streaks that may touch, as a sweep leaves them. -/

/-- The streaks are not empty, and `rel` holds between the stop of one and the start of those behind it. -/
structure Laid (rel : α → α → Prop) (l : List (Streak α)) : Prop where
  order : l.Pairwise fun r s => rel r.stop s.start
  nonempty : ∀ r ∈ l, r.start < r.stop

/-- There is a gap between any two. -/
abbrev Apart (l : List (Streak α)) : Prop := Laid (· < ·) l

/-- They may touch. -/
abbrev Ordered (l : List (Streak α)) : Prop := Laid (· ≤ ·) l

variable {rel : α → α → Prop}

theorem laid_nil : Laid rel ([] : List (Streak α)) := ⟨List.Pairwise.nil, fun _ hr => nomatch hr⟩

/-- A row, streak by streak. -/
theorem laid_cons : Laid rel (r :: l) ↔ r.start < r.stop ∧ (∀ s ∈ l, rel r.stop s.start) ∧ Laid rel l := by
  constructor
  · rintro ⟨horder, hne⟩
    obtain ⟨hr, horder⟩ := List.pairwise_cons.mp horder
    exact ⟨hne r List.mem_cons_self, hr, horder, fun s hs => hne s (List.mem_cons_of_mem r hs)⟩
  · rintro ⟨hr, hrel, horder, hne⟩
    exact ⟨List.pairwise_cons.mpr ⟨hrel, horder⟩, List.forall_mem_cons.mpr ⟨hr, hne⟩⟩

theorem Laid.head (h : Laid rel (r :: l)) : r.start < r.stop := (laid_cons.mp h).1

theorem Laid.tail (h : Laid rel (r :: l)) : Laid rel l := (laid_cons.mp h).2.2

theorem Laid.head_rel (h : Laid rel (r :: l)) : ∀ s ∈ l, rel r.stop s.start := (laid_cons.mp h).2.1

/-- Two rows in one. -/
theorem laid_append : Laid rel (l ++ l') ↔ Laid rel l ∧ Laid rel l' ∧ ∀ r ∈ l, ∀ s ∈ l', rel r.stop s.start := by
  constructor
  · rintro ⟨horder, hne⟩
    obtain ⟨hl, hl', hrel⟩ := List.pairwise_append.mp horder
    exact ⟨⟨hl, fun r hr => hne r (List.mem_append_left _ hr)⟩, ⟨hl', fun r hr => hne r (List.mem_append_right _ hr)⟩,
      hrel⟩
  · rintro ⟨hl, hl', hrel⟩
    refine ⟨List.pairwise_append.mpr ⟨hl.order, hl'.order, hrel⟩, ?_⟩
    intro r hr
    rcases List.mem_append.mp hr with hr | hr
    · exact hl.nonempty r hr
    · exact hl'.nonempty r hr

/-- With gaps, the streaks are in order. -/
theorem Apart.ordered (h : Apart l) : Ordered l := ⟨h.order.imp fun hlt => le_of_lt hlt, h.nonempty⟩

/-- Nothing starts before the first streak. -/
theorem Ordered.head_le (h : Ordered (r :: l)) : ∀ s ∈ r :: l, r.start ≤ s.start := by
  intro s hs
  rcases List.mem_cons.mp hs with rfl | hs
  · exact le_refl _
  · exact le_trans (le_of_lt h.head) (h.head_rel s hs)

/-! ## Streaks that touch

A streak that starts where the one before it stops is joined to that one. This makes a row of the second kind into one
of the first, and changes no element. -/

/-- A row that begins with `r`, with its touching streaks joined. -/
def squishFrom (r : Streak α) : List (Streak α) → List (Streak α)
  | [] => [r]
  | s :: l => if r.stop < s.start then r :: squishFrom s l else squishFrom ⟨r.start, s.stop⟩ l

/-- Joining makes no streaks. -/
theorem length_squishFrom (r : Streak α) (l : List (Streak α)) : (squishFrom r l).length ≤ (r :: l).length := by
  induction l generalizing r with
  | nil => exact Nat.le_refl _
  | cons s l ih =>
      unfold squishFrom
      split
      · exact Nat.succ_le_succ (ih s)
      · exact Nat.le_succ_of_le (ih ⟨r.start, s.stop⟩)

/-- Nor does it lose all. -/
theorem squishFrom_ne_nil (r : Streak α) (l : List (Streak α)) : squishFrom r l ≠ [] := by
  induction l generalizing r with
  | nil => exact List.cons_ne_nil _ _
  | cons s l ih =>
      unfold squishFrom
      split
      · exact List.cons_ne_nil _ _
      · exact ih ⟨r.start, s.stop⟩

/-- **Squishing** parts the streaks and keeps the set. -/
theorem squishFrom_spec (h : Ordered (r :: l)) : Apart (squishFrom r l) ∧
    (∀ s ∈ squishFrom r l, r.start ≤ s.start) ∧ ∀ x, Covers (squishFrom r l) x ↔ Covers (r :: l) x := by
  induction l generalizing r with
  | nil => exact ⟨laid_cons.mpr ⟨h.head, (fun s hs => nomatch hs), laid_nil⟩, h.head_le, fun x => Iff.rfl⟩
  | cons s l ih =>
      have hs := h.head_rel s List.mem_cons_self
      unfold squishFrom
      split
      · rename_i hgap
        obtain ⟨hapart, hstart, hcovers⟩ := ih h.tail
        refine ⟨laid_cons.mpr ⟨h.head, ?_, hapart⟩, ?_, ?_⟩
        · exact fun t ht => lt_of_lt_of_le hgap (hstart t ht)
        · intro t ht
          rcases List.mem_cons.mp ht with rfl | ht
          · exact le_refl _
          · exact le_trans (le_of_lt h.head) (le_trans hs (hstart t ht))
        · intro x
          rw [covers_cons, hcovers, ← covers_cons]
      · rename_i hgap
        -- the two touch
        have htouch : s.start = r.stop := le_antisymm (not_lt.mp hgap) hs
        have hlt := h.tail.head
        have hjoined : Ordered (⟨r.start, s.stop⟩ :: l) := by
          refine laid_cons.mpr ⟨?_, h.tail.head_rel, h.tail.tail⟩
          exact lt_trans h.head (htouch ▸ hlt)
        obtain ⟨hapart, hstart, hcovers⟩ := ih hjoined
        refine ⟨hapart, hstart, ?_⟩
        intro x
        rw [hcovers, covers_cons, covers_cons, covers_cons, ← or_assoc]
        refine or_congr_left ?_
        unfold Has
        rw [htouch]
        constructor
        · rintro ⟨hx, hx'⟩
          rcases lt_or_ge x r.stop with hlt' | hge
          · exact Or.inl ⟨hx, hlt'⟩
          · exact Or.inr ⟨hge, hx'⟩
        · rintro (⟨hx, hx'⟩ | ⟨hx, hx'⟩)
          · exact ⟨hx, lt_trans hx' (htouch ▸ hlt)⟩
          · exact ⟨le_trans (le_of_lt h.head) hx, hx'⟩

/-! ## Starts and stops in turn

A row with gaps is the same as an increasing list of an even number of bounds, and an element is in the set when it is
between a bound at an even place and the next one. -/

/-- **The bounds of a row go up** exactly when its streaks are apart. -/
theorem pairwise_flat : (flat l).Pairwise (· < ·) ↔ Apart l := by
  induction l with
  | nil => exact ⟨fun _ => laid_nil, fun _ => List.Pairwise.nil⟩
  | cons r l ih =>
      rw [flat_cons, List.pairwise_cons, List.pairwise_cons, ih, show Apart (r :: l) ↔ _ from laid_cons]
      constructor
      · rintro ⟨hstart, hstop, hl⟩
        exact ⟨hstart r.stop List.mem_cons_self, fun s hs => hstop s.start (mem_flat.mpr ⟨s, hs, Or.inl rfl⟩), hl⟩
      · rintro ⟨hr, hrel, hl⟩
        have hstop : ∀ x ∈ flat l, r.stop < x := by
          intro x hx
          obtain ⟨s, hs, rfl | rfl⟩ := mem_flat.mp hx
          · exact hrel s hs
          · exact lt_trans (hrel s hs) (hl.nonempty s hs)
        exact ⟨List.forall_mem_cons.mpr ⟨hr, fun x hx => lt_trans hr (hstop x hx)⟩, hstop, hl⟩

/-- The set, said of the bounds. -/
theorem covers_iff_flat {x : α} : Covers l x ↔
    ∃ i p q, (flat l)[2 * i]? = some p ∧ (flat l)[2 * i + 1]? = some q ∧ p ≤ x ∧ x < q := by
  constructor
  · rintro ⟨r, hr, hx⟩
    obtain ⟨i, hi⟩ := List.mem_iff_getElem?.mp hr
    refine ⟨i, r.start, r.stop, ?_, ?_, hx⟩
    · rw [flat_getElem?_start, hi]
      rfl
    · rw [flat_getElem?_stop, hi]
      rfl
  · rintro ⟨i, p, q, hp, hq, hx⟩
    rw [flat_getElem?_start] at hp
    rw [flat_getElem?_stop] at hq
    obtain ⟨r, hr, rfl⟩ := Option.map_eq_some_iff.mp hp
    rw [hr] at hq
    obtain rfl := Option.some.inj hq
    exact ⟨r, List.mem_of_getElem? hr, hx⟩

/-! ## Two rows side by side

The union of two rows in one pass. Each theorem about it is an induction by `sweep_induct`, whose cases are the turns
of the pass: a streak of the one row or of the other that stands alone, two that overlap, a streak that the group
takes, and the end of a group. -/

/-- The first streak of a row when it starts up to `q`: its stop, and what is behind it. -/
def reach (q : α) : List (Streak α) → Option (α × List (Streak α))
  | [] => none
  | r :: l => if r.start ≤ q then some (r.stop, l) else none

/-- What is reached is the first streak, when it starts up to `q`. -/
theorem reach_eq_some {q p : α} (h : reach q l = some (p, l')) : ∃ r, l = r :: l' ∧ r.stop = p ∧ r.start ≤ q := by
  cases l with
  | nil => cases h
  | cons r l =>
      by_cases hle : r.start ≤ q
      · rw [reach, if_pos hle] at h
        cases h
        exact ⟨r, rfl, rfl, hle⟩
      · rw [reach, if_neg hle] at h
        cases h

/-- When nothing is reached, the first streak starts behind `q`. -/
theorem reach_eq_none {q : α} (h : reach q l = none) : ∀ r, l.head? = some r → q < r.start := by
  intro r hr
  cases l with
  | nil => cases hr
  | cons s l =>
      obtain rfl := Option.some.inj hr
      by_cases hle : s.start ≤ q
      · rw [reach, if_pos hle] at h
        cases h
      · exact not_le.mp hle

/-- What `sweep` is in the middle of: a streak that starts at `start`, with the two stops it has come to. -/
structure Cluster (α : Type) where
  start : α
  left : α
  right : α

/-- What `sweep` puts together, and what is left of the row that is not used up. -/
def sweep : Option (Cluster α) → List (Streak α) → List (Streak α) →
    List (Streak α) × List (Streak α) × List (Streak α)
  | none, [], bs => ([], [], bs)
  | none, a :: as, [] => ([], a :: as, [])
  | none, a :: as, b :: bs =>
      if a.stop ≤ b.start then
        let rest := sweep none as (b :: bs)
        (a :: rest.1, rest.2)
      else if b.stop ≤ a.start then
        let rest := sweep none (a :: as) bs
        (b :: rest.1, rest.2)
      else sweep (some ⟨if a.start < b.start then a.start else b.start, a.stop, b.stop⟩) as bs
  | some g, as, bs =>
      match _ : reach g.right as with
      | some (p, as') => sweep (some ⟨g.start, p, g.right⟩) as' bs
      | none =>
          match _ : reach g.left bs with
          | some (q, bs') => sweep (some ⟨g.start, g.left, q⟩) as bs'
          | none =>
              let rest := sweep none as bs
              (⟨g.start, max g.left g.right⟩ :: rest.1, rest.2)
  termination_by mode as bs => 2 * (as.length + bs.length) + (if mode.isSome then 1 else 0)
  decreasing_by
  all_goals simp_wf
  all_goals try omega
  · rename_i h
    obtain ⟨r, rfl, -⟩ := reach_eq_some h
    simp
  · rename_i h
    obtain ⟨r, rfl, -⟩ := reach_eq_some h
    simp

section Sweep

variable {g : Cluster α} {p q : α} {a b : Streak α} {as' bs' : List (Streak α)}

@[simp] theorem sweep_nil : sweep none [] bs = ([], [], bs) := by
  rw [sweep]

@[simp] theorem sweep_nil_right : sweep none as [] = ([], as, []) := by
  cases as with
  | nil => rw [sweep]
  | cons a as => rw [sweep]

/-- Without a group, the three things that may happen to the first two streaks. -/
theorem sweep_cons : sweep none (a :: as) (b :: bs) =
    if a.stop ≤ b.start then (a :: (sweep none as (b :: bs)).1, (sweep none as (b :: bs)).2)
    else if b.stop ≤ a.start then (b :: (sweep none (a :: as) bs).1, (sweep none (a :: as) bs).2)
    else sweep (some ⟨if a.start < b.start then a.start else b.start, a.stop, b.stop⟩) as bs := by
  conv_lhs => rw [sweep]

/-- The group takes a streak of the first row when it reaches one. -/
theorem sweep_left (h : reach g.right as = some (p, as')) :
    sweep (some g) as bs = sweep (some ⟨g.start, p, g.right⟩) as' bs := by
  conv_lhs => rw [sweep]
  split
  · rename_i heq
    rw [h] at heq
    cases heq
    rfl
  · rename_i heq
    rw [h] at heq
    cases heq

/-- Or else one of the second row. -/
theorem sweep_right (h : reach g.right as = none) (h' : reach g.left bs = some (q, bs')) :
    sweep (some g) as bs = sweep (some ⟨g.start, g.left, q⟩) as bs' := by
  conv_lhs => rw [sweep]
  split
  · rename_i heq
    rw [h] at heq
    cases heq
  · split
    · rename_i heq
      rw [h'] at heq
      cases heq
      rfl
    · rename_i heq
      rw [h'] at heq
      cases heq

/-- When it reaches neither, it is closed. -/
theorem sweep_flush (h : reach g.right as = none) (h' : reach g.left bs = none) :
    sweep (some g) as bs = (⟨g.start, max g.left g.right⟩ :: (sweep none as bs).1, (sweep none as bs).2) := by
  conv_lhs => rw [sweep]
  split
  · rename_i heq
    rw [h] at heq
    cases heq
  · split
    · rename_i heq
      rw [h'] at heq
      cases heq
    · rfl

/-- **Induction over a sweep**: one case for each thing it can do. -/
theorem sweep_induct {motive : Option (Cluster α) → List (Streak α) → List (Streak α) → Prop}
    (nil : ∀ bs, motive none [] bs) (nil_right : ∀ as, motive none as [])
    (first : ∀ a as b bs, a.stop ≤ b.start → motive none as (b :: bs) → motive none (a :: as) (b :: bs))
    (second : ∀ a as b bs, ¬a.stop ≤ b.start → b.stop ≤ a.start → motive none (a :: as) bs →
      motive none (a :: as) (b :: bs))
    (meet : ∀ a as b bs, ¬a.stop ≤ b.start → ¬b.stop ≤ a.start →
      motive (some ⟨if a.start < b.start then a.start else b.start, a.stop, b.stop⟩) as bs →
      motive none (a :: as) (b :: bs))
    (left : ∀ g as bs p as', reach g.right as = some (p, as') → motive (some ⟨g.start, p, g.right⟩) as' bs →
      motive (some g) as bs)
    (right : ∀ g as bs q bs', reach g.right as = none → reach g.left bs = some (q, bs') →
      motive (some ⟨g.start, g.left, q⟩) as bs' → motive (some g) as bs)
    (flush : ∀ g as bs, reach g.right as = none → reach g.left bs = none → motive none as bs → motive (some g) as bs)
    (mode : Option (Cluster α)) (as bs : List (Streak α)) : motive mode as bs := by
  induction mode, as, bs using sweep.induct with
  | case1 bs => exact nil bs
  | case2 a as => exact nil_right (a :: as)
  | case3 a as b bs hle ih => exact first a as b bs hle ih
  | case4 a as b bs hle hle' ih => exact second a as b bs hle hle' ih
  | case5 a as b bs hle hle' ih => exact meet a as b bs hle hle' ih
  | case6 g as bs p as' h ih => exact left g as bs p as' h ih
  | case7 g as bs h q bs' h' ih => exact right g as bs q bs' h h' ih
  | case8 g as bs h h' ih => exact flush g as bs h h' ih

/-- What is left is not more than there was, nothing is put together twice, and one row is used up. -/
theorem sweep_length (mode : Option (Cluster α)) (as bs : List (Streak α)) :
    (sweep mode as bs).2.1.length ≤ as.length ∧ (sweep mode as bs).2.2.length ≤ bs.length ∧
    (sweep mode as bs).1.length + (sweep mode as bs).2.1.length + (sweep mode as bs).2.2.length ≤
      as.length + bs.length + (if mode.isSome then 1 else 0) ∧
    ((sweep mode as bs).2.1 = [] ∨ (sweep mode as bs).2.2 = []) := by
  induction mode, as, bs using sweep_induct with
  | nil bs => simp
  | nil_right as => simp
  | first a as b bs hle ih =>
      rw [sweep_cons, if_pos hle]
      obtain ⟨hleft, hright, hsum, hused⟩ := ih
      refine ⟨Nat.le_succ_of_le hleft, hright, ?_, hused⟩
      simp only [List.length_cons] at hsum ⊢
      omega
  | second a as b bs hle hle' ih =>
      rw [sweep_cons, if_neg hle, if_pos hle']
      obtain ⟨hleft, hright, hsum, hused⟩ := ih
      refine ⟨hleft, Nat.le_succ_of_le hright, ?_, hused⟩
      simp only [List.length_cons] at hsum ⊢
      omega
  | meet a as b bs hle hle' ih =>
      rw [sweep_cons, if_neg hle, if_neg hle']
      obtain ⟨hleft, hright, hsum, hused⟩ := ih
      refine ⟨Nat.le_succ_of_le hleft, Nat.le_succ_of_le hright, ?_, hused⟩
      simp only [List.length_cons, Option.isSome_some, if_true] at hsum ⊢
      omega
  | left g as bs p as' h ih =>
      rw [sweep_left h]
      obtain ⟨r, rfl, -⟩ := reach_eq_some h
      obtain ⟨hleft, hright, hsum, hused⟩ := ih
      refine ⟨Nat.le_succ_of_le hleft, hright, ?_, hused⟩
      simp only [List.length_cons, Option.isSome_some, if_true] at hsum ⊢
      omega
  | right g as bs q bs' h h' ih =>
      rw [sweep_right h h']
      obtain ⟨r, rfl, -⟩ := reach_eq_some h'
      obtain ⟨hleft, hright, hsum, hused⟩ := ih
      refine ⟨hleft, Nat.le_succ_of_le hright, ?_, hused⟩
      simp only [List.length_cons, Option.isSome_some, if_true] at hsum ⊢
      omega
  | flush g as bs h h' ih =>
      rw [sweep_flush h h']
      obtain ⟨hleft, hright, hsum, hused⟩ := ih
      refine ⟨hleft, hright, ?_, hused⟩
      simp only [List.length_cons, Option.isSome_some, Option.isSome_none, if_true] at hsum ⊢
      simp at hsum
      omega

/-- Something is put together, if there is a group or anything in both rows. -/
theorem sweep_ne_nil (mode : Option (Cluster α)) (as bs : List (Streak α))
    (h : mode.isSome = true ∨ as ≠ [] ∧ bs ≠ []) : (sweep mode as bs).1 ≠ [] := by
  induction mode, as, bs using sweep_induct with
  | nil bs =>
      rcases h with h | ⟨h, -⟩
      · cases h
      · exact absurd rfl h
  | nil_right as =>
      rcases h with h | ⟨-, h⟩
      · cases h
      · exact absurd rfl h
  | first a as b bs hle ih =>
      rw [sweep_cons, if_pos hle]
      exact List.cons_ne_nil _ _
  | second a as b bs hle hle' ih =>
      rw [sweep_cons, if_neg hle, if_pos hle']
      exact List.cons_ne_nil _ _
  | meet a as b bs hle hle' ih =>
      rw [sweep_cons, if_neg hle, if_neg hle']
      exact ih (Or.inl rfl)
  | left g as bs p as' hr ih =>
      rw [sweep_left hr]
      exact ih (Or.inl rfl)
  | right g as bs q bs' hr hr' ih =>
      rw [sweep_right hr hr']
      exact ih (Or.inl rfl)
  | flush g as bs hr hr' ih =>
      rw [sweep_flush hr hr']
      exact List.cons_ne_nil _ _

/-- The two rows, and the group if there is one: its streaks overlap, and the rows go on behind them. -/
def Good : Option (Cluster α) → List (Streak α) → List (Streak α) → Prop
  | none, as, bs => Apart as ∧ Apart bs
  | some g, as, bs => Apart as ∧ Apart bs ∧ g.start < g.left ∧ g.start < g.right ∧
      (∀ r ∈ as, g.left < r.start) ∧ ∀ r ∈ bs, g.right < r.start

/-- What the group covers so far. -/
def InGroup (mode : Option (Cluster α)) (x : α) : Prop := ∃ g, mode = some g ∧ g.start ≤ x ∧ x < max g.left g.right

theorem not_inGroup_none (x : α) : ¬InGroup none x := fun ⟨_, hg, _⟩ => nomatch hg

/-- A group covers what is from its start on, up to the later one of its stops. -/
theorem inGroup_some {x : α} : InGroup (some g) x ↔ g.start ≤ x ∧ x < max g.left g.right := by
  constructor
  · rintro ⟨_, ⟨⟩, hx⟩
    exact hx
  · exact fun hx => ⟨g, rfl, hx⟩

/-- Everything that is put together, and then what is left. -/
def swept (mode : Option (Cluster α)) (as bs : List (Streak α)) : List (Streak α) :=
  (sweep mode as bs).1 ++ ((sweep mode as bs).2.1 ++ (sweep mode as bs).2.2)

/-- Two streaks that overlap make a group. -/
theorem Good.group {as bs : List (Streak α)} (h : Good none (a :: as) (b :: bs)) (hab : ¬a.stop ≤ b.start)
    (hba : ¬b.stop ≤ a.start) :
    Good (some ⟨if a.start < b.start then a.start else b.start, a.stop, b.stop⟩) as bs := by
  obtain ⟨ha, hb⟩ := h
  refine ⟨ha.tail, hb.tail, ?_, ?_, ha.head_rel, hb.head_rel⟩
  · show (if a.start < b.start then a.start else b.start) < a.stop
    split
    · exact ha.head
    · exact not_le.mp hab
  · show (if a.start < b.start then a.start else b.start) < b.stop
    split
    · exact not_le.mp hba
    · exact hb.head

/-- The group may take a streak of the first row. -/
theorem Good.left (h : Good (some g) as bs) (hr : reach g.right as = some (p, as')) :
    Good (some ⟨g.start, p, g.right⟩) as' bs := by
  obtain ⟨r, rfl, rfl, -⟩ := reach_eq_some hr
  obtain ⟨ha, hb, hleft, hright, hbehind, hbehind'⟩ := h
  refine ⟨ha.tail, hb, ?_, hright, ha.head_rel, hbehind'⟩
  exact lt_trans hleft (lt_trans (hbehind r List.mem_cons_self) ha.head)

/-- The group may take a streak of the second row. -/
theorem Good.right (h : Good (some g) as bs) (hr : reach g.left bs = some (q, bs')) :
    Good (some ⟨g.start, g.left, q⟩) as bs' := by
  obtain ⟨r, rfl, rfl, -⟩ := reach_eq_some hr
  obtain ⟨ha, hb, hleft, hright, hbehind, hbehind'⟩ := h
  refine ⟨ha, hb.tail, hleft, ?_, hbehind, hb.head_rel⟩
  exact lt_trans hright (lt_trans (hbehind' r List.mem_cons_self) hb.head)

/-- Behind a row whose first streak is not reached, nothing is. -/
theorem lt_of_reach_none (ha : Apart as) (h : reach q as = none) : ∀ r ∈ as, q < r.start := by
  cases as with
  | nil => exact fun r hr => nomatch hr
  | cons a as =>
      have hlt := reach_eq_none h a rfl
      exact fun r hr => lt_of_lt_of_le hlt (ha.ordered.head_le r hr)

/-- Nothing of a sweep starts before the rows and the group do. -/
theorem le_swept {lo : α} (mode : Option (Cluster α)) (as bs : List (Streak α)) (hmode : ∀ g, mode = some g → lo ≤ g.start)
    (ha : ∀ r ∈ as, lo ≤ r.start) (hb : ∀ r ∈ bs, lo ≤ r.start) : ∀ r ∈ swept mode as bs, lo ≤ r.start := by
  induction mode, as, bs using sweep_induct with
  | nil bs =>
      rw [swept, sweep_nil]
      exact hb
  | nil_right as =>
      rw [swept, sweep_nil_right]
      simpa using ha
  | first a as b bs hle ih =>
      rw [swept, sweep_cons, if_pos hle]
      exact List.forall_mem_cons.mpr ⟨ha a List.mem_cons_self,
        ih (fun g hg => nomatch hg) (fun r hr => ha r (List.mem_cons_of_mem a hr)) hb⟩
  | second a as b bs hle hle' ih =>
      rw [swept, sweep_cons, if_neg hle, if_pos hle']
      exact List.forall_mem_cons.mpr ⟨hb b List.mem_cons_self,
        ih (fun g hg => nomatch hg) ha (fun r hr => hb r (List.mem_cons_of_mem b hr))⟩
  | meet a as b bs hle hle' ih =>
      rw [swept, sweep_cons, if_neg hle, if_neg hle']
      refine ih ?_ (fun r hr => ha r (List.mem_cons_of_mem a hr)) (fun r hr => hb r (List.mem_cons_of_mem b hr))
      rintro g ⟨⟩
      show lo ≤ if a.start < b.start then a.start else b.start
      split
      · exact ha a List.mem_cons_self
      · exact hb b List.mem_cons_self
  | left g as bs p as' h ih =>
      rw [swept, sweep_left h]
      obtain ⟨r, rfl, -⟩ := reach_eq_some h
      refine ih ?_ (fun s hs => ha s (List.mem_cons_of_mem r hs)) hb
      rintro _ ⟨⟩
      exact hmode g rfl
  | right g as bs q bs' h h' ih =>
      rw [swept, sweep_right h h']
      obtain ⟨r, rfl, -⟩ := reach_eq_some h'
      refine ih ?_ ha (fun s hs => hb s (List.mem_cons_of_mem r hs))
      rintro _ ⟨⟩
      exact hmode g rfl
  | flush g as bs h h' ih =>
      rw [swept, sweep_flush h h']
      exact List.forall_mem_cons.mpr ⟨hmode g rfl, ih (fun g hg => nomatch hg) ha hb⟩

/-- **A sweep is ordered.** -/
theorem ordered_swept (mode : Option (Cluster α)) (as bs : List (Streak α)) (h : Good mode as bs) :
    Ordered (swept mode as bs) := by
  induction mode, as, bs using sweep_induct with
  | nil bs =>
      rw [swept, sweep_nil]
      exact h.2.ordered
  | nil_right as =>
      rw [swept, sweep_nil_right, List.append_nil]
      exact h.1.ordered
  | first a as b bs hle ih =>
      obtain ⟨ha, hb⟩ := h
      rw [swept, sweep_cons, if_pos hle]
      refine laid_cons.mpr ⟨ha.head, ?_, ih ⟨ha.tail, hb⟩⟩
      exact le_swept none as (b :: bs) (fun g hg => nomatch hg) (fun r hr => le_of_lt (ha.head_rel r hr))
        fun r hr => le_trans hle (hb.ordered.head_le r hr)
  | second a as b bs hle hle' ih =>
      obtain ⟨ha, hb⟩ := h
      rw [swept, sweep_cons, if_neg hle, if_pos hle']
      refine laid_cons.mpr ⟨hb.head, ?_, ih ⟨ha, hb.tail⟩⟩
      exact le_swept none (a :: as) bs (fun g hg => nomatch hg) (fun r hr => le_trans hle' (ha.ordered.head_le r hr))
        fun r hr => le_of_lt (hb.head_rel r hr)
  | meet a as b bs hle hle' ih =>
      rw [swept, sweep_cons, if_neg hle, if_neg hle']
      exact ih (h.group hle hle')
  | left g as bs p as' hr ih =>
      rw [swept, sweep_left hr]
      exact ih (h.left hr)
  | right g as bs q bs' hr hr' ih =>
      rw [swept, sweep_right hr hr']
      exact ih (h.right hr')
  | flush g as bs hr hr' ih =>
      obtain ⟨ha, hb, hleft, hright, hbehind, hbehind'⟩ := h
      rw [swept, sweep_flush hr hr']
      refine laid_cons.mpr ⟨lt_max_of_lt_left hleft, ?_, ih ⟨ha, hb⟩⟩
      exact le_swept none as bs (fun g hg => nomatch hg)
        (fun r hmem => max_le (le_of_lt (hbehind r hmem)) (le_of_lt (lt_of_reach_none ha hr r hmem)))
        (fun r hmem => max_le (le_of_lt (lt_of_reach_none hb hr' r hmem)) (le_of_lt (hbehind' r hmem)))

/-- A streak that the group has reached is joined to it. -/
theorem reached_iff {r : Streak α} {start x : α} (hr : r.start < r.stop) (hstart : start ≤ r.start)
    (hbehind : p < r.start) (hreach : r.start ≤ q) :
    (start ≤ x ∧ x < max r.stop q) ↔ (start ≤ x ∧ x < max p q) ∨ r.Has x := by
  unfold Has
  constructor
  · rintro ⟨hx, hx'⟩
    rcases lt_or_ge x q with hlt | hge
    · exact Or.inl ⟨hx, lt_max_of_lt_right hlt⟩
    · refine Or.inr ⟨le_trans hreach hge, ?_⟩
      rcases lt_max_iff.mp hx' with h | h
      · exact h
      · exact absurd h (not_lt.mpr hge)
  · rintro (⟨hx, hx'⟩ | ⟨hx, hx'⟩)
    · refine ⟨hx, ?_⟩
      rcases lt_max_iff.mp hx' with h | h
      · exact lt_max_of_lt_left (lt_trans h (lt_trans hbehind hr))
      · exact lt_max_of_lt_right h
    · exact ⟨le_trans hstart hx, lt_max_of_lt_left hx'⟩

/-- Two streaks that overlap are one. -/
theorem meet_iff {x : α} (hab : b.start < a.stop) (hba : a.start < b.stop) :
    ((if a.start < b.start then a.start else b.start) ≤ x ∧ x < max a.stop b.stop) ↔ a.Has x ∨ b.Has x := by
  unfold Has
  constructor
  · rintro ⟨hx, hx'⟩
    split at hx
    · rcases lt_or_ge x a.stop with hlt | hge
      · exact Or.inl ⟨hx, hlt⟩
      · rcases lt_max_iff.mp hx' with h | h
        · exact absurd h (not_lt.mpr hge)
        · exact Or.inr ⟨le_trans (le_of_lt hab) hge, h⟩
    · rcases lt_or_ge x b.stop with hlt | hge
      · exact Or.inr ⟨hx, hlt⟩
      · rcases lt_max_iff.mp hx' with h | h
        · exact Or.inl ⟨le_trans (le_of_lt hba) hge, h⟩
        · exact absurd h (not_lt.mpr hge)
  · split
    · rename_i hlt
      rintro (⟨hx, hx'⟩ | ⟨hx, hx'⟩)
      · exact ⟨hx, lt_max_of_lt_left hx'⟩
      · exact ⟨le_trans (le_of_lt hlt) hx, lt_max_of_lt_right hx'⟩
    · rename_i hle
      rintro (⟨hx, hx'⟩ | ⟨hx, hx'⟩)
      · exact ⟨le_trans (not_lt.mp hle) hx, lt_max_of_lt_left hx'⟩
      · exact ⟨hx, lt_max_of_lt_right hx'⟩

/-- **A sweep covers what the two rows cover.** -/
theorem covers_swept (mode : Option (Cluster α)) (as bs : List (Streak α)) (h : Good mode as bs) (x : α) :
    Covers (swept mode as bs) x ↔ InGroup mode x ∨ Covers as x ∨ Covers bs x := by
  induction mode, as, bs using sweep_induct with
  | nil bs =>
      rw [swept, sweep_nil]
      simp [not_inGroup_none, not_covers_nil]
  | nil_right as =>
      rw [swept, sweep_nil_right, List.append_nil]
      simp [not_inGroup_none, not_covers_nil]
  | first a as b bs hle ih =>
      have ih : _ ↔ _ := ih ⟨h.1.tail, h.2⟩
      rw [swept, sweep_cons, if_pos hle]
      show Covers (a :: swept none as (b :: bs)) x ↔ _
      rw [covers_cons, ih, covers_cons (r := a)]
      simp only [not_inGroup_none, false_or, or_assoc]
  | second a as b bs hle hle' ih =>
      have ih : _ ↔ _ := ih ⟨h.1, h.2.tail⟩
      rw [swept, sweep_cons, if_neg hle, if_pos hle']
      show Covers (b :: swept none (a :: as) bs) x ↔ _
      rw [covers_cons, ih, covers_cons (r := b)]
      simp only [not_inGroup_none, false_or]
      exact or_left_comm
  | meet a as b bs hle hle' ih =>
      have ih : _ ↔ _ := ih (h.group hle hle')
      rw [swept, sweep_cons, if_neg hle, if_neg hle']
      show Covers (swept _ as bs) x ↔ _
      rw [ih, inGroup_some, meet_iff (not_le.mp hle) (not_le.mp hle'), covers_cons, covers_cons]
      simp only [not_inGroup_none, false_or, or_assoc]
      exact or_congr_right or_left_comm
  | left g as bs p as' hr ih =>
      have ih : _ ↔ _ := ih (h.left hr)
      rw [swept, sweep_left hr]
      obtain ⟨r, rfl, rfl, hreach⟩ := reach_eq_some hr
      obtain ⟨ha, -, hleft, -, hbehind, -⟩ := h
      have hbehind := hbehind r List.mem_cons_self
      show Covers (swept _ as' bs) x ↔ _
      rw [ih, inGroup_some, inGroup_some, reached_iff ha.head (le_of_lt (lt_trans hleft hbehind)) hbehind hreach, covers_cons,
        or_assoc, or_assoc]
  | right g as bs q bs' hr hr' ih =>
      have ih : _ ↔ _ := ih (h.right hr')
      rw [swept, sweep_right hr hr']
      obtain ⟨r, rfl, rfl, hreach⟩ := reach_eq_some hr'
      obtain ⟨-, hb, -, hright, -, hbehind⟩ := h
      have hbehind := hbehind r List.mem_cons_self
      show Covers (swept _ as bs') x ↔ _
      rw [ih, inGroup_some, inGroup_some, max_comm, reached_iff hb.head (le_of_lt (lt_trans hright hbehind)) hbehind hreach,
        max_comm, covers_cons, or_assoc]
      exact or_congr_right or_left_comm
  | flush g as bs hr hr' ih =>
      have ih : _ ↔ _ := ih ⟨h.1, h.2.1⟩
      rw [swept, sweep_flush hr hr']
      show Covers (_ :: swept none as bs) x ↔ _
      rw [covers_cons, ih, inGroup_some]
      simp only [not_inGroup_none, false_or]
      exact Iff.rfl

end Sweep

end Streak
end FOrder
