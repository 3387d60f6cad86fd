import FOrder.Lib.Streaks
import Mathlib.Data.Set.Card

/-!
# `Lib.StreakGroups` — what a sweep puts together, counted

A group begins where a streak starts, unless two streaks overlap before it and there is no gap since. A sweep puts a
group together as long as both rows have a streak that starts there or later; it leaves over what begins behind
that.

`Opens` and `Both` say this about the two rows as sets, without a sweep, and the last section counts: how much a
sweep puts together, how much there is in all, and how much of each row it uses.

The proof follows the sweep. In the middle of one, what has been taken from the rows is remembered by the group
only, so `JoinedIn` counts the group among the places where overlapping begins. `Shift` is what one step of a sweep
does: what it takes from the rows was joined already or begins something new, and for the rest `JoinedIn` and `Both`
are as before. From there `Shift.grouped` goes from a step to the whole sweep, and `grouped` is the induction. The
second row's cases are those of the first, the other way round (`Shift.comm`).
-/

namespace FOrder
namespace Streak

variable {α : Type} [LinearOrder α] {as bs as₁ bs₁ as' bs' l : List (Streak α)} {a b r : Streak α} {g : Cluster α}
  {mode mode₁ : Option (Cluster α)} {p q x : α} {new : α → Prop}

/-! ## Groups

The notions are about points and not about the places of streaks in a row. `Joined p` says that a group which began
before `p` is still open there; `Opens p`, that a group begins at `p`. -/

/-- Where two streaks begin to be one: they overlap, and the first of them starts at `q`. -/
def Overlap (as bs : List (Streak α)) (q : α) : Prop :=
  ∃ r ∈ as, ∃ s ∈ bs, r.start < s.stop ∧ s.start < r.stop ∧ min r.start s.start = q

/-- Two streaks overlap before `p`, and from there to `p` there is no gap. -/
def Joined (as bs : List (Streak α)) (p : α) : Prop :=
  ∃ q, Overlap as bs q ∧ q < p ∧ ∀ y, q ≤ y → y < p → Covers as y ∨ Covers bs y

/-- A streak starts at `p`. -/
def Starts (as bs : List (Streak α)) (p : α) : Prop := (∃ r ∈ as, r.start = p) ∨ ∃ r ∈ bs, r.start = p

/-- Both rows have a streak that starts at `p` or later. -/
def Both (as bs : List (Streak α)) (p : α) : Prop := (∃ r ∈ as, p ≤ r.start) ∧ ∃ s ∈ bs, p ≤ s.start

/-- A group begins at `p`. -/
def Opens (as bs : List (Streak α)) (p : α) : Prop := Starts as bs p ∧ ¬Joined as bs p

/-! ## In the middle of a sweep

The same notions, with a group that has been begun: the rows have lost the streaks that are in the group already, and
the group stands for them. -/

/-- The group that the sweep is in begins at `q`, or two streaks overlap there. -/
def Origin (mode : Option (Cluster α)) (as bs : List (Streak α)) (q : α) : Prop :=
  (∃ g, mode = some g ∧ g.start = q) ∨ Overlap as bs q

/-- What the group and the two rows cover. -/
def Inside (mode : Option (Cluster α)) (as bs : List (Streak α)) (y : α) : Prop :=
  InGroup mode y ∨ Covers as y ∨ Covers bs y

/-- `Joined`, with the group that the sweep is in. -/
def JoinedIn (mode : Option (Cluster α)) (as bs : List (Streak α)) (p : α) : Prop :=
  ∃ q, Origin mode as bs q ∧ q < p ∧ ∀ y, q ≤ y → y < p → Inside mode as bs y

/-- Without a group it is `Joined`. -/
theorem joinedIn_none : JoinedIn none as bs p ↔ Joined as bs p := by
  have horigin : ∀ q, Origin none as bs q ↔ Overlap as bs q := fun q => or_iff_right fun ⟨_, hg, _⟩ => nomatch hg
  have hinside : ∀ y, Inside none as bs y ↔ Covers as y ∨ Covers bs y := fun y => or_iff_right (not_inGroup_none y)
  unfold JoinedIn Joined
  simp only [horigin, hinside]

/-- Every origin of the one is joined to an origin of the other, and no gap comes up behind it. -/
theorem JoinedIn.transfer (h : JoinedIn mode as bs p)
    (horigin : ∀ q, q < p → Origin mode as bs q →
      ∃ q', q' ≤ q ∧ Origin mode₁ as₁ bs₁ q' ∧ ∀ y, q' ≤ y → y < q → Inside mode₁ as₁ bs₁ y)
    (hinside : ∀ q y, Origin mode as bs q → q ≤ y → y < p → Inside mode as bs y → Inside mode₁ as₁ bs₁ y) :
    JoinedIn mode₁ as₁ bs₁ p := by
  obtain ⟨q, hq, hqp, hall⟩ := h
  obtain ⟨q', hle, hq', hbefore⟩ := horigin q hqp hq
  refine ⟨q', hq', lt_of_le_of_lt hle hqp, ?_⟩
  intro y hy hyp
  rcases lt_or_ge y q with hlt | hge
  · exact hbefore y hy hlt
  · exact hinside q y hq hge hyp (hall y hge hyp)

/-- The two rows, the other way round. -/
def Cluster.swap (g : Cluster α) : Cluster α := ⟨g.start, g.right, g.left⟩

/-- Where streaks overlap does not depend on which row is the first. -/
theorem overlap_comm : Overlap as bs q ↔ Overlap bs as q := by
  constructor
  · rintro ⟨r, hr, s, hs, hrs, hsr, hq⟩
    exact ⟨s, hs, r, hr, hsr, hrs, by rw [min_comm, hq]⟩
  · rintro ⟨r, hr, s, hs, hrs, hsr, hq⟩
    exact ⟨s, hs, r, hr, hsr, hrs, by rw [min_comm, hq]⟩

omit [LinearOrder α] in
/-- Nor does where a streak starts. -/
theorem starts_comm : Starts as bs p ↔ Starts bs as p := or_comm

/-- Nor does where both rows go on. -/
theorem both_comm : Both as bs p ↔ Both bs as p := and_comm

/-- Nor does what is joined. -/
theorem joinedIn_comm : JoinedIn mode as bs p ↔ JoinedIn (mode.map Cluster.swap) bs as p := by
  have hgroup : ∀ y, InGroup mode y ↔ InGroup (mode.map Cluster.swap) y := by
    intro y
    cases mode with
    | none => exact Iff.rfl
    | some g =>
        rw [inGroup_some, Option.map_some, inGroup_some]
        show _ ↔ g.start ≤ y ∧ y < max g.right g.left
        rw [max_comm]
  have horigin : ∀ q, Origin mode as bs q ↔ Origin (mode.map Cluster.swap) bs as q := by
    intro q
    refine or_congr ?_ overlap_comm
    cases mode with
    | none => exact Iff.rfl
    | some g =>
        constructor
        · rintro ⟨_, ⟨⟩, hq⟩
          exact ⟨g.swap, rfl, hq⟩
        · rintro ⟨_, ⟨⟩, hq⟩
          exact ⟨g, rfl, hq⟩
  unfold JoinedIn Inside
  simp only [hgroup, horigin]
  refine exists_congr fun q => and_congr_right fun _ => and_congr_right fun _ => ?_
  refine forall_congr' fun y => imp_congr_right fun _ => imp_congr_right fun _ => or_congr_right or_comm

/-! ## One step of a sweep

`Shift` compares the state before and after a step. It has a clause for what has been taken, and one for what is left;
with these the steps differ only in which point begins something new. -/

/-- What a step of a sweep takes from the rows was joined already, or `new` begins with it; the rest stays as it is. -/
structure Shift (new : α → Prop) (mode : Option (Cluster α)) (as bs : List (Streak α)) (mode₁ : Option (Cluster α))
    (as₁ bs₁ : List (Streak α)) : Prop where
  left_sub : ∀ r ∈ as₁, r ∈ as
  right_sub : ∀ r ∈ bs₁, r ∈ bs
  left_gone : ∀ r ∈ as, r ∈ as₁ ∨ JoinedIn mode as bs r.start ∨ new r.start
  right_gone : ∀ r ∈ bs, r ∈ bs₁ ∨ JoinedIn mode as bs r.start ∨ new r.start
  joined : ∀ p, Starts as₁ bs₁ p → (JoinedIn mode as bs p ↔ JoinedIn mode₁ as₁ bs₁ p)
  both : ∀ p, Starts as₁ bs₁ p → (Both as bs p ↔ Both as₁ bs₁ p)
  begins : ∀ p, new p → Starts as bs p ∧ ¬JoinedIn mode as bs p ∧ Both as bs p

/-- So a step on the one row is a step on the other. -/
theorem Shift.comm (h : Shift new mode as bs mode₁ as₁ bs₁) :
    Shift new (mode.map Cluster.swap) bs as (mode₁.map Cluster.swap) bs₁ as₁ where
  left_sub := h.right_sub
  right_sub := h.left_sub
  left_gone r hr := by
    rw [← joinedIn_comm]
    exact h.right_gone r hr
  right_gone r hr := by
    rw [← joinedIn_comm]
    exact h.left_gone r hr
  joined p hp := by
    rw [← joinedIn_comm, ← joinedIn_comm]
    exact h.joined p (starts_comm.mp hp)
  both p hp := by
    exact both_comm.trans ((h.both p (starts_comm.mp hp)).trans both_comm)
  begins p hp := by
    rw [← joinedIn_comm, starts_comm, both_comm]
    exact h.begins p hp

/-- What begins as long as both rows go on: what is new, and what begins later. -/
theorem Shift.begins_iff (h : Shift new mode as bs mode₁ as₁ bs₁) :
    (Starts as bs p ∧ ¬JoinedIn mode as bs p ∧ Both as bs p) ↔
      new p ∨ (Starts as₁ bs₁ p ∧ ¬JoinedIn mode₁ as₁ bs₁ p ∧ Both as₁ bs₁ p) := by
  constructor
  · rintro ⟨hstarts, hjoined, hboth⟩
    have hrest : Starts as₁ bs₁ p ∨ new p := by
      rcases hstarts with ⟨r, hr, rfl⟩ | ⟨r, hr, rfl⟩
      · rcases h.left_gone r hr with hr | hr | hr
        · exact Or.inl (Or.inl ⟨r, hr, rfl⟩)
        · exact absurd hr hjoined
        · exact Or.inr hr
      · rcases h.right_gone r hr with hr | hr | hr
        · exact Or.inl (Or.inr ⟨r, hr, rfl⟩)
        · exact absurd hr hjoined
        · exact Or.inr hr
    rcases hrest with hrest | hnew
    · exact Or.inr ⟨hrest, fun hj => hjoined ((h.joined p hrest).mpr hj), (h.both p hrest).mp hboth⟩
    · exact Or.inl hnew
  · rintro (hnew | ⟨hstarts, hjoined, hboth⟩)
    · exact h.begins p hnew
    · refine ⟨?_, fun hj => hjoined ((h.joined p hstarts).mp hj), (h.both p hstarts).mpr hboth⟩
      exact hstarts.imp (fun ⟨r, hr, hp⟩ => ⟨r, h.left_sub r hr, hp⟩) fun ⟨r, hr, hp⟩ => ⟨r, h.right_sub r hr, hp⟩

/-- What begins when one row is used up begins later. -/
theorem Shift.left_iff (h : Shift new mode as bs mode₁ as₁ bs₁) :
    (r ∈ as ∧ ¬JoinedIn mode as bs r.start ∧ ¬Both as bs r.start) ↔
      r ∈ as₁ ∧ ¬JoinedIn mode₁ as₁ bs₁ r.start ∧ ¬Both as₁ bs₁ r.start := by
  constructor
  · rintro ⟨hr, hjoined, hboth⟩
    rcases h.left_gone r hr with hr | hr | hr
    · have hstarts : Starts as₁ bs₁ r.start := Or.inl ⟨r, hr, rfl⟩
      exact ⟨hr, fun hj => hjoined ((h.joined _ hstarts).mpr hj), fun hb => hboth ((h.both _ hstarts).mpr hb)⟩
    · exact absurd hr hjoined
    · exact absurd (h.begins _ hr).2.2 hboth
  · rintro ⟨hr, hjoined, hboth⟩
    have hstarts : Starts as₁ bs₁ r.start := Or.inl ⟨r, hr, rfl⟩
    exact ⟨h.left_sub r hr, fun hj => hjoined ((h.joined _ hstarts).mp hj), fun hb => hboth ((h.both _ hstarts).mp hb)⟩

/-- The same for the second row. -/
theorem Shift.right_iff (h : Shift new mode as bs mode₁ as₁ bs₁) :
    (r ∈ bs ∧ ¬JoinedIn mode as bs r.start ∧ ¬Both as bs r.start) ↔
      r ∈ bs₁ ∧ ¬JoinedIn mode₁ as₁ bs₁ r.start ∧ ¬Both as₁ bs₁ r.start := by
  have hcomm := h.comm.left_iff (r := r)
  rw [← joinedIn_comm, ← joinedIn_comm, both_comm, @both_comm _ _ bs₁ as₁] at hcomm
  exact hcomm

/-- A streak of a row starts behind the first one's stop. -/
theorem lt_of_starts_tail (ha : Apart (a :: as)) {r : Streak α} (hr : r ∈ as) : a.start < r.start :=
  lt_trans ha.head (ha.head_rel r hr)

/-- The first row's streak ends before the second row's starts. -/
theorem shift_first (ha : Apart (a :: as)) (hb : Apart (b :: bs)) (hle : a.stop ≤ b.start) :
    Shift (· = a.start) none (a :: as) (b :: bs) none as (b :: bs) := by
  have hbehind : ∀ s ∈ b :: bs, a.stop ≤ s.start := fun s hs => le_trans hle (hb.ordered.head_le s hs)
  have hstarts : ∀ p, Starts as (b :: bs) p → a.stop ≤ p := by
    rintro p (⟨r, hr, rfl⟩ | ⟨s, hs, rfl⟩)
    · exact le_of_lt (ha.head_rel r hr)
    · exact hbehind s hs
  have horigin : ∀ q, Origin none (a :: as) (b :: bs) q → Origin none as (b :: bs) q ∧ a.stop ≤ q := by
    rintro q (⟨_, hg, _⟩ | ⟨r, hr, s, hs, hrs, hsr, hq⟩)
    · cases hg
    · rcases List.mem_cons.mp hr with rfl | hr
      · exact absurd hsr (not_lt.mpr (hbehind s hs))
      · refine ⟨Or.inr ⟨r, hr, s, hs, hrs, hsr, hq⟩, ?_⟩
        rw [← hq]
        exact le_min (le_of_lt (ha.head_rel r hr)) (hbehind s hs)
  refine ⟨fun r hr => List.mem_cons_of_mem a hr, fun r hr => hr, ?_, fun r hr => Or.inl hr, ?_, ?_, ?_⟩
  · intro r hr
    rcases List.mem_cons.mp hr with rfl | hr
    · exact Or.inr (Or.inr rfl)
    · exact Or.inl hr
  · intro p _
    constructor
    · intro h
      refine h.transfer (fun q _ hq => ⟨q, le_refl q, (horigin q hq).1, ?_⟩) ?_
      · exact fun y hy hlt => absurd hlt (not_lt.mpr hy)
      · rintro q y hq hqy - (hy | hy | hy)
        · exact Or.inl hy
        · rcases covers_cons.mp hy with hy | hy
          · exact absurd hy.2 (not_lt.mpr (le_trans (horigin q hq).2 hqy))
          · exact Or.inr (Or.inl hy)
        · exact Or.inr (Or.inr hy)
    · intro h
      refine h.transfer ?_ ?_
      · rintro q - (⟨_, hg, _⟩ | ⟨r, hr, s, hs, hmeet⟩)
        · cases hg
        · exact ⟨q, le_refl q, Or.inr ⟨r, List.mem_cons_of_mem a hr, s, hs, hmeet⟩,
            fun y hy hlt => absurd hlt (not_lt.mpr hy)⟩
      · rintro q y - - - (hy | hy | hy)
        · exact Or.inl hy
        · exact Or.inr (Or.inl (covers_cons.mpr (Or.inr hy)))
        · exact Or.inr (Or.inr hy)
  · intro p hp
    have hlt : a.start < p := lt_of_lt_of_le ha.head (hstarts p hp)
    refine and_congr_left fun _ => ?_
    rw [List.exists_mem_cons_iff]
    exact or_iff_right (not_le.mpr hlt)
  · rintro p rfl
    refine ⟨Or.inl ⟨a, List.mem_cons_self, rfl⟩, ?_, ⟨a, List.mem_cons_self, le_refl _⟩, b, List.mem_cons_self, ?_⟩
    · rintro ⟨q, hq, hqp, -⟩
      exact not_lt.mpr (le_of_lt (lt_of_lt_of_le ha.head (horigin q hq).2)) hqp
    · exact le_trans (le_of_lt ha.head) hle

/-- The second row's streak ends before the first row's starts. -/
theorem shift_second (ha : Apart (a :: as)) (hb : Apart (b :: bs)) (hle : b.stop ≤ a.start) :
    Shift (· = b.start) none (a :: as) (b :: bs) none (a :: as) bs := (shift_first hb ha hle).comm

/-- The two streaks overlap. -/
theorem shift_meet (ha : Apart (a :: as)) (hb : Apart (b :: bs)) (hab : b.start < a.stop) (hba : a.start < b.stop) :
    Shift (· = if a.start < b.start then a.start else b.start) none (a :: as) (b :: bs)
      (some ⟨if a.start < b.start then a.start else b.start, a.stop, b.stop⟩) as bs := by
  obtain ⟨lo, hlo⟩ : ∃ lo, lo = if a.start < b.start then a.start else b.start := ⟨_, rfl⟩
  have hmin : min a.start b.start = lo := by
    rw [hlo]
    split
    · exact min_eq_left (le_of_lt ‹_›)
    · exact min_eq_right (not_lt.mp ‹_›)
  have hloa : lo ≤ a.start := hmin ▸ min_le_left _ _
  have hlob : lo ≤ b.start := hmin ▸ min_le_right _ _
  rw [← hlo]
  have hinside : ∀ y, Inside none (a :: as) (b :: bs) y ↔ Inside (some ⟨lo, a.stop, b.stop⟩) as bs y := by
    intro y
    have hmeet := meet_iff (x := y) hab hba
    rw [← hlo] at hmeet
    unfold Inside
    rw [inGroup_some, hmeet, covers_cons, covers_cons]
    simp only [not_inGroup_none, false_or, or_assoc]
    exact or_congr_right or_left_comm
  have hgroup : ∀ y, lo ≤ y → y < max a.stop b.stop → Inside (some ⟨lo, a.stop, b.stop⟩) as bs y :=
    fun y hy hy' => Or.inl (inGroup_some.mpr ⟨hy, hy'⟩)
  have hfirst : Origin none (a :: as) (b :: bs) lo :=
    Or.inr ⟨a, List.mem_cons_self, b, List.mem_cons_self, hba, hab, hmin⟩
  have hstart : ∀ r ∈ a :: as, lo ≤ r.start := fun r hr => le_trans hloa (ha.ordered.head_le r hr)
  have hstart' : ∀ s ∈ b :: bs, lo ≤ s.start := fun s hs => le_trans hlob (hb.ordered.head_le s hs)
  have hlow : ∀ q, Origin none (a :: as) (b :: bs) q → lo ≤ q := by
    rintro q (⟨_, hg, _⟩ | ⟨r, hr, s, hs, -, -, hq⟩)
    · cases hg
    · rw [← hq]
      exact le_min (hstart r hr) (hstart' s hs)
  have hbehind : ∀ p, Starts as bs p → a.start < p ∧ b.start < p := by
    rintro p (⟨r, hr, rfl⟩ | ⟨s, hs, rfl⟩)
    · exact ⟨lt_of_starts_tail ha hr, lt_trans hab (ha.head_rel r hr)⟩
    · exact ⟨lt_trans hba (hb.head_rel s hs), lt_of_starts_tail hb hs⟩
  refine ⟨fun r hr => List.mem_cons_of_mem a hr, fun r hr => List.mem_cons_of_mem b hr, ?_, ?_, ?_, ?_, ?_⟩
  · intro r hr
    rcases List.mem_cons.mp hr with rfl | hr
    · rcases lt_or_eq_of_le hloa with hlt | heq
      · refine Or.inr (Or.inl ⟨lo, hfirst, hlt, ?_⟩)
        exact fun y hy hy' => (hinside y).mpr (hgroup y hy (lt_max_of_lt_left (lt_trans hy' ha.head)))
      · exact Or.inr (Or.inr heq.symm)
    · exact Or.inl hr
  · intro s hs
    rcases List.mem_cons.mp hs with rfl | hs
    · rcases lt_or_eq_of_le hlob with hlt | heq
      · refine Or.inr (Or.inl ⟨lo, hfirst, hlt, ?_⟩)
        exact fun y hy hy' => (hinside y).mpr (hgroup y hy (lt_max_of_lt_right (lt_trans hy' hb.head)))
      · exact Or.inr (Or.inr heq.symm)
    · exact Or.inl hs
  · intro p _
    constructor
    · intro h
      refine h.transfer ?_ fun q y _ _ _ hy => (hinside y).mp hy
      intro q _ hq
      have hlo := hlow q hq
      have hjoin : q ≤ a.start ∨ q ≤ b.start → ∃ q', q' ≤ q ∧ Origin (some ⟨lo, a.stop, b.stop⟩) as bs q' ∧
          ∀ y, q' ≤ y → y < q → Inside (some ⟨lo, a.stop, b.stop⟩) as bs y := by
        intro hq
        refine ⟨lo, hlo, Or.inl ⟨_, rfl, rfl⟩, fun y hy hy' => hgroup y hy ?_⟩
        rcases hq with hq | hq
        · exact lt_max_of_lt_left (lt_trans (lt_of_lt_of_le hy' hq) ha.head)
        · exact lt_max_of_lt_right (lt_trans (lt_of_lt_of_le hy' hq) hb.head)
      rcases hq with ⟨_, hg, _⟩ | ⟨r, hr, s, hs, hrs, hsr, hq⟩
      · cases hg
      · rcases List.mem_cons.mp hr with rfl | hr
        · exact hjoin (Or.inl (hq ▸ min_le_left _ _))
        · rcases List.mem_cons.mp hs with rfl | hs
          · exact hjoin (Or.inr (hq ▸ min_le_right _ _))
          · exact ⟨q, le_refl q, Or.inr ⟨r, hr, s, hs, hrs, hsr, hq⟩, fun y hy hlt => absurd hlt (not_lt.mpr hy)⟩
    · intro h
      refine h.transfer ?_ fun q y _ _ _ hy => (hinside y).mpr hy
      rintro q - (⟨_, ⟨⟩, rfl⟩ | ⟨r, hr, s, hs, hmeet⟩)
      · exact ⟨lo, le_refl _, hfirst, fun y hy hlt => absurd hlt (not_lt.mpr hy)⟩
      · exact ⟨q, le_refl q, Or.inr ⟨r, List.mem_cons_of_mem a hr, s, List.mem_cons_of_mem b hs, hmeet⟩,
          fun y hy hlt => absurd hlt (not_lt.mpr hy)⟩
  · intro p hp
    obtain ⟨hpa, hpb⟩ := hbehind p hp
    unfold Both
    rw [List.exists_mem_cons_iff, List.exists_mem_cons_iff, or_iff_right (not_le.mpr hpa),
      or_iff_right (not_le.mpr hpb)]
  · rintro p rfl
    refine ⟨?_, fun ⟨q, hq, hqp, _⟩ => not_lt.mpr (hlow q hq) hqp, ⟨a, List.mem_cons_self, hloa⟩, b,
      List.mem_cons_self, hlob⟩
    rw [← hmin]
    rcases min_choice a.start b.start with h | h
    · exact Or.inl ⟨a, List.mem_cons_self, h.symm⟩
    · exact Or.inr ⟨b, List.mem_cons_self, h.symm⟩

/-- The first row's streak is reached by the group. -/
theorem shift_left (h : Good (some g) as bs) (hr : reach g.right as = some (p, as')) :
    Shift (fun _ => False) (some g) as bs (some ⟨g.start, p, g.right⟩) as' bs := by
  obtain ⟨r, rfl, rfl, hreach⟩ := reach_eq_some hr
  obtain ⟨ha, hb, hleft, hright, hbehind, hbehind'⟩ := h
  have hrg : g.start < r.start := lt_trans hleft (hbehind r List.mem_cons_self)
  have hinside : ∀ y, Inside (some g) (r :: as') bs y ↔ Inside (some ⟨g.start, r.stop, g.right⟩) as' bs y := by
    intro y
    have hreached := reached_iff (x := y) ha.head (le_of_lt hrg) (hbehind r List.mem_cons_self) hreach
    unfold Inside
    rw [inGroup_some, inGroup_some, hreached, covers_cons, or_assoc, or_assoc]
  have hgroup : ∀ y, g.start ≤ y → y < r.start → Inside (some g) (r :: as') bs y :=
    fun y hy hy' => Or.inl (inGroup_some.mpr ⟨hy, lt_max_of_lt_right (lt_of_lt_of_le hy' hreach)⟩)
  have hlt : ∀ p, Starts as' bs p → r.start < p := by
    rintro p (⟨t, ht, rfl⟩ | ⟨s, hs, rfl⟩)
    · exact lt_of_starts_tail ha ht
    · exact lt_of_le_of_lt hreach (hbehind' s hs)
  refine ⟨fun t ht => List.mem_cons_of_mem r ht, fun t ht => ht, ?_, fun t ht => Or.inl ht, ?_, ?_,
    fun p hp => hp.elim⟩
  · intro t ht
    rcases List.mem_cons.mp ht with rfl | ht
    · exact Or.inr (Or.inl ⟨g.start, Or.inl ⟨g, rfl, rfl⟩, hrg, hgroup⟩)
    · exact Or.inl ht
  · intro p _
    constructor
    · intro h
      refine h.transfer ?_ fun q y _ _ _ hy => (hinside y).mp hy
      rintro q - (⟨_, ⟨⟩, rfl⟩ | ⟨t, ht, s, hs, hts, hst, hq⟩)
      · exact ⟨g.start, le_refl _, Or.inl ⟨_, rfl, rfl⟩, fun y hy hlt => absurd hlt (not_lt.mpr hy)⟩
      · rcases List.mem_cons.mp ht with rfl | ht
        · have hqt : q ≤ t.start := hq ▸ min_le_left _ _
          have hgq : g.start ≤ q := hq ▸ le_min (le_of_lt hrg) (le_of_lt (lt_trans hright (hbehind' s hs)))
          exact ⟨g.start, hgq, Or.inl ⟨_, rfl, rfl⟩,
            fun y hy hy' => (hinside y).mp (hgroup y hy (lt_of_lt_of_le hy' hqt))⟩
        · exact ⟨q, le_refl q, Or.inr ⟨t, ht, s, hs, hts, hst, hq⟩, fun y hy hlt => absurd hlt (not_lt.mpr hy)⟩
    · intro h
      refine h.transfer ?_ fun q y _ _ _ hy => (hinside y).mpr hy
      rintro q - (⟨_, ⟨⟩, rfl⟩ | ⟨t, ht, s, hs, hmeet⟩)
      · exact ⟨g.start, le_refl _, Or.inl ⟨g, rfl, rfl⟩, fun y hy hlt => absurd hlt (not_lt.mpr hy)⟩
      · exact ⟨q, le_refl q, Or.inr ⟨t, List.mem_cons_of_mem r ht, s, hs, hmeet⟩,
          fun y hy hlt => absurd hlt (not_lt.mpr hy)⟩
  · intro p hp
    refine and_congr_left fun _ => ?_
    rw [List.exists_mem_cons_iff]
    exact or_iff_right (not_le.mpr (hlt p hp))

/-- A group, with its rows the other way round. -/
theorem Good.swap (h : Good (some g) as bs) : Good (some g.swap) bs as := by
  obtain ⟨ha, hb, hleft, hright, hbehind, hbehind'⟩ := h
  exact ⟨hb, ha, hright, hleft, hbehind', hbehind⟩

/-- The second row's streak is reached by the group. -/
theorem shift_right (h : Good (some g) as bs) (hr : reach g.left bs = some (q, bs')) :
    Shift (fun _ => False) (some g) as bs (some ⟨g.start, g.left, q⟩) as bs' := (shift_left h.swap hr).comm

/-- Neither row reaches the group: there is a gap behind it. -/
theorem shift_flush (h : Good (some g) as bs) (hr : reach g.right as = none) (hr' : reach g.left bs = none) :
    Shift (fun _ => False) (some g) as bs none as bs := by
  obtain ⟨ha, hb, hleft, hright, hbehind, hbehind'⟩ := h
  have hfar : ∀ r ∈ as, max g.left g.right < r.start :=
    fun r hmem => max_lt (hbehind r hmem) (lt_of_reach_none ha hr r hmem)
  have hfar' : ∀ s ∈ bs, max g.left g.right < s.start :=
    fun s hmem => max_lt (lt_of_reach_none hb hr' s hmem) (hbehind' s hmem)
  refine ⟨fun r hr => hr, fun r hr => hr, fun r hr => Or.inl hr, fun r hr => Or.inl hr, ?_, fun p _ => Iff.rfl,
    fun p hp => hp.elim⟩
  intro p hp
  constructor
  · rintro ⟨q, hq, hqp, hall⟩
    rcases hq with ⟨_, ⟨⟩, rfl⟩ | hq
    · -- the group's stop is not inside
      have hgap : max g.left g.right < p := by
        rcases hp with ⟨r, hr, rfl⟩ | ⟨s, hs, rfl⟩
        · exact hfar r hr
        · exact hfar' s hs
      rcases hall _ (le_of_lt (lt_max_of_lt_left hleft)) hgap with hin | ⟨r, hr, hin, -⟩ | ⟨s, hs, hin, -⟩
      · exact absurd (inGroup_some.mp hin).2 (lt_irrefl _)
      · exact absurd hin (not_le.mpr (hfar r hr))
      · exact absurd hin (not_le.mpr (hfar' s hs))
    · refine ⟨q, Or.inr hq, hqp, fun y hy hyp => ?_⟩
      obtain ⟨r, hr, s, hs, -, -, hmin⟩ := hq
      have hqfar : max g.left g.right < q := hmin ▸ lt_min (hfar r hr) (hfar' s hs)
      rcases hall y hy hyp with hin | hin
      · exact absurd (inGroup_some.mp hin).2 (not_lt.mpr (le_of_lt (lt_of_lt_of_le hqfar hy)))
      · exact Or.inr hin
  · rintro ⟨q, hq, hqp, hall⟩
    rcases hq with ⟨_, hg, _⟩ | hq
    · cases hg
    · refine ⟨q, Or.inr hq, hqp, fun y hy hyp => ?_⟩
      rcases hall y hy hyp with hin | hin
      · exact absurd hin (not_inGroup_none y)
      · exact Or.inr hin

/-! ## A whole sweep

By induction over the sweep: the points where something new has begun, step by step, are the starts of what is put
together. -/

/-- What a sweep puts together begins where a group does, while both rows go on; what is left over, behind that. -/
structure Grouped (mode : Option (Cluster α)) (as bs : List (Streak α)) : Prop where
  begins : ∀ p, p ∈ (sweep mode as bs).1.map Streak.start ↔
    (∃ g, mode = some g ∧ g.start = p) ∨ (Starts as bs p ∧ ¬JoinedIn mode as bs p ∧ Both as bs p)
  left : ∀ r, r ∈ (sweep mode as bs).2.1 ↔ r ∈ as ∧ ¬JoinedIn mode as bs r.start ∧ ¬Both as bs r.start
  right : ∀ r, r ∈ (sweep mode as bs).2.2 ↔ r ∈ bs ∧ ¬JoinedIn mode as bs r.start ∧ ¬Both as bs r.start

/-- With one row only, nothing is joined, and nothing put together. -/
theorem grouped_nil : Grouped none [] bs where
  begins p := by
    rw [sweep_nil]
    refine iff_of_false (fun h => nomatch h) ?_
    rintro (⟨_, hg, _⟩ | ⟨-, -, ⟨_, hr, _⟩, -⟩)
    · cases hg
    · cases hr
  left r := by
    rw [sweep_nil]
    exact iff_of_false (fun h => nomatch h) fun h => nomatch h.1
  right r := by
    rw [sweep_nil]
    refine (and_iff_left ⟨?_, fun ⟨⟨_, ht, _⟩, _⟩ => nomatch ht⟩).symm
    rintro ⟨q, ⟨_, hg, _⟩ | ⟨_, ht, _⟩, -⟩
    · cases hg
    · cases ht

/-- The same for the other row. -/
theorem grouped_nil_right : Grouped none as [] where
  begins p := by
    rw [sweep_nil_right]
    refine iff_of_false (fun h => nomatch h) ?_
    rintro (⟨_, hg, _⟩ | ⟨-, -, -, _, hs, _⟩)
    · cases hg
    · cases hs
  left r := by
    rw [sweep_nil_right]
    refine (and_iff_left ⟨?_, fun ⟨_, _, ht, _⟩ => nomatch ht⟩).symm
    rintro ⟨q, ⟨_, hg, _⟩ | ⟨_, _, _, hs, _⟩, -⟩
    · cases hg
    · cases hs
  right r := by
    rw [sweep_nil_right]
    exact iff_of_false (fun h => nomatch h) fun h => nomatch h.1

/-- From a step to the whole sweep. -/
theorem Shift.grouped (h : Shift new mode as bs mode₁ as₁ bs₁) (ih : Grouped mode₁ as₁ bs₁)
    (hrest : (sweep mode as bs).2 = (sweep mode₁ as₁ bs₁).2)
    (hdone : ∀ p, p ∈ (sweep mode as bs).1.map Streak.start ↔ ((∃ g, mode = some g ∧ g.start = p) ∨ new p) ∨
      (Starts as₁ bs₁ p ∧ ¬JoinedIn mode₁ as₁ bs₁ p ∧ Both as₁ bs₁ p)) : Grouped mode as bs where
  begins p := by rw [hdone, or_assoc, h.begins_iff]
  left r := by rw [hrest, ih.left, h.left_iff]
  right r := by rw [hrest, ih.right, h.right_iff]

/-- **A sweep puts groups together.** -/
theorem grouped (mode : Option (Cluster α)) (as bs : List (Streak α)) (h : Good mode as bs) : Grouped mode as bs := by
  have hnone : ∀ p : α, ¬∃ g, (none : Option (Cluster α)) = some g ∧ g.start = p := fun p ⟨_, hg, _⟩ => nomatch hg
  have hsome : ∀ (g : Cluster α) (p : α), (∃ g', some g = some g' ∧ g'.start = p) ↔ p = g.start := by
    intro g p
    constructor
    · rintro ⟨_, ⟨⟩, hp⟩
      exact hp.symm
    · exact fun hp => ⟨g, rfl, hp.symm⟩
  induction mode, as, bs using sweep_induct with
  | nil bs => exact grouped_nil
  | nil_right as => exact grouped_nil_right
  | first a as b bs hle ih =>
      have ih := ih ⟨h.1.tail, h.2⟩
      refine (shift_first h.1 h.2 hle).grouped ih ?_ fun p => ?_
      · rw [sweep_cons, if_pos hle]
      · rw [sweep_cons, if_pos hle, List.map_cons, List.mem_cons, ih.begins, or_iff_right (hnone p),
          or_iff_right (hnone p)]
  | second a as b bs hgt hle ih =>
      have ih := ih ⟨h.1, h.2.tail⟩
      refine (shift_second h.1 h.2 hle).grouped ih ?_ fun p => ?_
      · rw [sweep_cons, if_neg hgt, if_pos hle]
      · rw [sweep_cons, if_neg hgt, if_pos hle, List.map_cons, List.mem_cons, ih.begins, or_iff_right (hnone p),
          or_iff_right (hnone p)]
  | meet a as b bs hgt hgt' ih =>
      have ih := ih (h.group hgt hgt')
      refine (shift_meet h.1 h.2 (not_le.mp hgt) (not_le.mp hgt')).grouped ih ?_ fun p => ?_
      · rw [sweep_cons, if_neg hgt, if_neg hgt']
      · rw [sweep_cons, if_neg hgt, if_neg hgt', ih.begins, or_iff_right (hnone p), hsome]
  | left g as bs p as' hr ih =>
      have ih := ih (h.left hr)
      refine (shift_left h hr).grouped ih ?_ fun q => ?_
      · rw [sweep_left hr]
      · rw [sweep_left hr, ih.begins, hsome, hsome, or_false]
  | right g as bs p bs' hr hr' ih =>
      have ih := ih (h.right hr')
      refine (shift_right h hr').grouped ih ?_ fun q => ?_
      · rw [sweep_right hr hr']
      · rw [sweep_right hr hr', ih.begins, hsome, hsome, or_false]
  | flush g as bs hr hr' ih =>
      have ih := ih ⟨h.1, h.2.1⟩
      refine (shift_flush h hr hr').grouped ih ?_ fun q => ?_
      · rw [sweep_flush hr hr']
      · rw [sweep_flush hr hr', List.map_cons, List.mem_cons, ih.begins, or_iff_right (hnone q), hsome, or_false]

/-! ## Counting

From sets of points to numbers. The streaks of a row have different starts, so a row is as long as the set of its
starts is large. -/

/-- Different streaks of a row have different starts. -/
theorem nodup_starts (h : Ordered l) : (l.map Streak.start).Nodup := by
  induction l with
  | nil => exact List.nodup_nil
  | cons r l ih =>
      rw [List.map_cons, List.nodup_cons]
      refine ⟨?_, ih h.tail⟩
      intro hmem
      obtain ⟨s, hs, heq⟩ := List.mem_map.mp hmem
      exact absurd (lt_of_lt_of_le h.head (h.head_rel s hs)) (not_lt.mpr (le_of_eq heq))

/-- A list without repetitions is as long as the set of its elements is large. -/
theorem ncard_of_nodup {β : Type} {l : List β} {P : β → Prop} (hl : l.Nodup) (h : ∀ x, x ∈ l ↔ P x) :
    l.length = Set.ncard {x | P x} := by
  classical
  have hset : {x | P x} = (l.toFinset : Set β) := by
    ext x
    rw [Set.mem_ofPred_eq, Finset.mem_coe, List.mem_toFinset, h]
  rw [hset, Set.ncard_coe_finset, List.toFinset_card_of_nodup hl]

/-- Where the streaks start that a sweep puts together. -/
theorem mem_starts_sweep (h : Good none as bs) :
    p ∈ (sweep none as bs).1.map Streak.start ↔ Starts as bs p ∧ ¬Joined as bs p ∧ Both as bs p := by
  rw [(grouped none as bs h).begins, or_iff_right (fun ⟨_, hg, _⟩ => nomatch hg), joinedIn_none]

/-- **How much a sweep puts together**: a streak for each group that begins while both rows go on. -/
theorem length_sweep (h : Good none as bs) :
    (sweep none as bs).1.length = Set.ncard {p | Opens as bs p ∧ Both as bs p} := by
  have hord := (laid_append.mp (ordered_swept none as bs h)).1
  rw [← List.length_map (f := Streak.start)]
  refine ncard_of_nodup (nodup_starts hord) fun p => ?_
  rw [mem_starts_sweep h]
  exact and_assoc.symm

/-- **How much there is in all**: a streak for each group. -/
theorem length_swept (h : Good none as bs) : (swept none as bs).length = Set.ncard {p | Opens as bs p} := by
  have hgrouped := grouped none as bs h
  rw [← List.length_map (f := Streak.start)]
  refine ncard_of_nodup (nodup_starts (ordered_swept none as bs h)) fun p => ?_
  unfold swept
  rw [List.map_append, List.map_append, List.mem_append, List.mem_append, mem_starts_sweep h, List.mem_map, List.mem_map]
  simp only [hgrouped.left, hgrouped.right, joinedIn_none]
  constructor
  · rintro (⟨hstarts, hjoined, -⟩ | ⟨r, ⟨hr, hjoined, -⟩, rfl⟩ | ⟨r, ⟨hr, hjoined, -⟩, rfl⟩)
    · exact ⟨hstarts, hjoined⟩
    · exact ⟨Or.inl ⟨r, hr, rfl⟩, hjoined⟩
    · exact ⟨Or.inr ⟨r, hr, rfl⟩, hjoined⟩
  · rintro ⟨hstarts, hjoined⟩
    by_cases hboth : Both as bs p
    · exact Or.inl ⟨hstarts, hjoined, hboth⟩
    · rcases hstarts with ⟨r, hr, rfl⟩ | ⟨r, hr, rfl⟩
      · exact Or.inr (Or.inl ⟨r, ⟨hr, hjoined, hboth⟩, rfl⟩)
      · exact Or.inr (Or.inr ⟨r, ⟨hr, hjoined, hboth⟩, rfl⟩)

/-- What is taken from a row, when the rest is what neither `P` nor `Q` has. -/
theorem length_sub {rest : List (Streak α)} {P Q : α → Prop} (hl : (l.map Streak.start).Nodup)
    (hrest : (rest.map Streak.start).Nodup) (h : ∀ r, r ∈ rest ↔ r ∈ l ∧ ¬P r.start ∧ ¬Q r.start) :
    l.length - rest.length = Set.ncard {r | r ∈ l ∧ (P r.start ∨ Q r.start)} := by
  classical
  have hl' := List.Nodup.of_map _ hl
  have hrest' := List.Nodup.of_map _ hrest
  have hsub : rest.toFinset ⊆ l.toFinset := by
    intro r hr
    exact List.mem_toFinset.mpr ((h r).mp (List.mem_toFinset.mp hr)).1
  have hset : {r | r ∈ l ∧ (P r.start ∨ Q r.start)} = ((l.toFinset \ rest.toFinset : Finset (Streak α)) : Set _) := by
    ext r
    rw [Set.mem_ofPred_eq, Finset.mem_coe, Finset.mem_sdiff, List.mem_toFinset, List.mem_toFinset, h]
    tauto
  rw [hset, Set.ncard_coe_finset, Finset.card_sdiff_of_subset hsub, List.toFinset_card_of_nodup hl',
    List.toFinset_card_of_nodup hrest']

/-- **How much of a row is used**: what is joined, and what begins while both rows go on. -/
theorem length_used_left (h : Good none as bs) : as.length - (sweep none as bs).2.1.length =
    Set.ncard {r | r ∈ as ∧ (Joined as bs r.start ∨ Both as bs r.start)} := by
  have hrest := (laid_append.mp (laid_append.mp (ordered_swept none as bs h)).2.1).1
  refine length_sub (nodup_starts h.1.ordered) (nodup_starts hrest) fun r => ?_
  rw [(grouped none as bs h).left, joinedIn_none]

/-- And of the other row. -/
theorem length_used_right (h : Good none as bs) : bs.length - (sweep none as bs).2.2.length =
    Set.ncard {r | r ∈ bs ∧ (Joined as bs r.start ∨ Both as bs r.start)} := by
  have hrest := (laid_append.mp (laid_append.mp (ordered_swept none as bs h)).2.1).2.1
  refine length_sub (nodup_starts h.2.ordered) (nodup_starts hrest) fun r => ?_
  rw [(grouped none as bs h).right, joinedIn_none]

end Streak
end FOrder
