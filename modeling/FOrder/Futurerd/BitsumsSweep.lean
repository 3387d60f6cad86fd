import FOrder.Futurerd.BitsumsMerge

/-!
# `Futurerd.BitsumsSweep` — what the loop of `merge` comes to

The loop of `merge` is followed through a sweep of its two inputs (`Streak.sweep`). It ends with what the sweep puts
together; or it overruns its memory, when that is more than there is room for; or an index wraps, and it never ends.

## The invariant

The sweep has two modes, and so has the loop.

- `Counting`, with no group open: the indices of the inputs and of the output are even, what is put together so far,
  `done`, is written, and what is left of the inputs is the runs `as` and `bs`.
- `Grouping`, with a group open: the indices are odd, the start of the group is written, and each input is before a
  stop of the group. Between two turns the stop of the group is not known yet.

`Sweeping` is the one or the other, by the mode of the sweep.

## What the loop comes to

`Outcome` says it of a state and of the rest of the sweep, in three parts: `ends`, `overruns` and `stuck`. It is
proved backwards: `Outcome.of_turn` takes it from the state after a turn to the state before, and there are three
ways to begin, `of_exit`, `of_overrun` and `of_never`. The induction is on the sweep (`outcome`); for each of its
turns, one lemma below says what `mergeStep` does.

The indices are 32-bit numbers, and this is where it shows. An input's index that gets to `2 ^ 32` is `0` again, and
the loop is before entries that it has read already (`Stuck`). An index of the output that gets there is no trouble
for the loop as such: it writes over what is in front.
-/

namespace FOrder.Futurerd
namespace Bitsums
open Streak

/-- The inputs, and the memory that `merge` asks for. -/
structure Inputs (a b : Bitsums) (xs ys : List Nat) (cap : Nat) : Prop where
  left : a.Holds xs
  right : b.Holds ys
  left_up : xs.Pairwise (· < ·)
  right_up : ys.Pairwise (· < ·)
  left_le : xs.length ≤ cap
  right_le : ys.length ≤ cap

/-- Counting zeros: `done` is put together, and both inputs are before a run of ones. -/
structure Counting (cap : Nat) (xs ys : List Nat) (s : MergeState) (as bs done : List (Streak Nat)) : Prop where
  zero : s.isCountingZero = true
  left : AtStart xs s.ai as
  right : AtStart ys s.bi bs
  oi : s.oi = (flat done).length % 2 ^ 32
  written : Written cap s.o (flat done)
  room : HasRoom cap (flat done).length

/-- Counting ones: the start of the group is written, and both inputs are before a stop of it. What is before them there
is in the group too. -/
structure Grouping (cap : Nat) (xs ys : List Nat) (s : MergeState) (g : Cluster Nat) (as bs done : List (Streak Nat)) :
    Prop where
  one : s.isCountingZero = false
  left : AtStop xs s.ai g.left as
  right : AtStop ys s.bi g.right bs
  left_reached : ∀ {v : Nat}, xs[s.ai - 1]? = some v → v ≤ g.right
  right_reached : ∀ {v : Nat}, ys[s.bi - 1]? = some v → v ≤ g.left
  oi : s.oi = (flat done ++ [g.start]).length % 2 ^ 32
  written : Written cap s.o (flat done ++ [g.start])
  room : HasRoom cap (flat done ++ [g.start]).length

/-- Where the loop is, in a sweep. -/
def Sweeping (cap : Nat) (xs ys : List Nat) (s : MergeState) :
    Option (Cluster Nat) → List (Streak Nat) → List (Streak Nat) → List (Streak Nat) → Prop
  | none, as, bs, done => Counting cap xs ys s as bs done
  | some g, as, bs, done => Grouping cap xs ys s g as bs done

/-- The loop. -/
abbrev mergeLoop (a b : Bitsums) (fuel : Nat) (s : MergeState) : Except Stop MergeState :=
  loop .running (bothLeft a b) (mergeStep a b) fuel s

/-- No index of an input gets to `2 ^ 32` in what is left of the sweep. -/
structure Counts (s : MergeState) (mode : Option (Cluster Nat)) (as bs : List (Streak Nat)) : Prop where
  left : s.ai + (if mode.isSome then 1 else 0) + 2 * (as.length - (sweep mode as bs).2.1.length) < 2 ^ 32
  right : s.bi + (if mode.isSome then 1 else 0) + 2 * (bs.length - (sweep mode as bs).2.2.length) < 2 ^ 32

/-- What the loop comes to. -/
structure Outcome (a b : Bitsums) (xs ys : List Nat) (cap : Nat) (s : MergeState) (mode : Option (Cluster Nat))
    (as bs done : List (Streak Nat)) : Prop where
  ends : Counts s mode as bs → HasRoom cap (flat (done ++ (sweep mode as bs).1)).length →
    ∃ s', Settles (fun fuel => mergeLoop a b fuel s) (.ok s') ∧
      Counting cap xs ys s' (sweep mode as bs).2.1 (sweep mode as bs).2.2 (done ++ (sweep mode as bs).1)
  overruns : ¬HasRoom cap (flat (done ++ (sweep mode as bs).1)).length →
    Settles (fun fuel => mergeLoop a b fuel s) (.error .overrun)
  stuck : ¬Counts s mode as bs → ∀ fuel s', mergeLoop a b fuel s ≠ .ok s'

/-! ## What a turn says of the rest

`Outcome` from the state after a turn to the state before it. Room and counts are about the rest of the sweep, so what
a turn writes and reads has to be accounted for. -/

section Outcome

variable {a b : Bitsums} {xs ys : List Nat} {cap : Nat} {s s₁ : MergeState} {mode mode₁ : Option (Cluster Nat)}
  {as bs as₁ bs₁ done done₁ : List (Streak Nat)} {r t : Streak Nat} {g : Cluster Nat}

/-- `Counts`, as a conjunction for the arithmetic. -/
theorem counts_iff : Counts s mode as bs ↔
    s.ai + (if mode.isSome then 1 else 0) + 2 * (as.length - (sweep mode as bs).2.1.length) < 2 ^ 32 ∧
    s.bi + (if mode.isSome then 1 else 0) + 2 * (bs.length - (sweep mode as bs).2.2.length) < 2 ^ 32 :=
  ⟨fun h => ⟨h.left, h.right⟩, fun h => ⟨h.1, h.2⟩⟩

/-- A loop that does not return after a turn does not return before it. -/
theorem never_of_turn (hgo : bothLeft a b s = true) (hstep : mergeStep a b s = .ok s₁)
    (h : ∀ fuel s', mergeLoop a b fuel s₁ ≠ .ok s') (fuel : Nat) (s' : MergeState) : mergeLoop a b fuel s ≠ .ok s' := by
  intro hrun
  cases fuel with
  | zero => cases hrun
  | succ fuel =>
      unfold mergeLoop at hrun
      rw [loop_turn hgo, hstep] at hrun
      exact h fuel s' hrun

/-- An index can wrap only in an input with `2 ^ 32` entries, and `merge` makes room for as many. -/
theorem Stuck.wide (h : Stuck xs ys s) (hin : Inputs a b xs ys cap) : 2 ^ 32 ≤ cap := by
  cases h with
  | left hlong => exact Nat.le_trans hlong hin.left_le
  | right hlong => exact Nat.le_trans hlong hin.right_le

/-- **A stuck loop does not return**: each of its turns leaves it stuck, and while it is stuck both inputs have
    entries left. -/
theorem Stuck.never (h : Stuck xs ys s) (hin : Inputs a b xs ys cap) (fuel : Nat) (s' : MergeState) :
    mergeLoop a b fuel s ≠ .ok s' :=
  loop_stuck (Stuck xs ys) (fun _ ht => ht.bothLeft hin.left hin.right) (fun _ _ ht hstep => ht.step hin.left hin.right hstep) h

/-- After a turn. -/
theorem Outcome.of_turn (h : Outcome a b xs ys cap s₁ mode₁ as₁ bs₁ done₁) (hgo : bothLeft a b s = true)
    (hstep : mergeStep a b s = .ok s₁) (hdone : done₁ ++ (sweep mode₁ as₁ bs₁).1 = done ++ (sweep mode as bs).1)
    (hrest : (sweep mode₁ as₁ bs₁).2 = (sweep mode as bs).2)
    (hcounts : Counts s₁ mode₁ as₁ bs₁ ↔ Counts s mode as bs) : Outcome a b xs ys cap s mode as bs done where
  ends hcount hroom := by
    rw [← hdone] at hroom
    obtain ⟨s', hsettles, hcounting⟩ := h.ends (hcounts.mpr hcount) hroom
    rw [hdone, hrest] at hcounting
    exact ⟨s', settles_turn hgo hstep hsettles, hcounting⟩
  overruns hroom := by
    rw [← hdone] at hroom
    exact settles_turn hgo hstep (h.overruns hroom)
  stuck hcount := never_of_turn hgo hstep (h.stuck fun hcount₁ => hcount (hcounts.mp hcount₁))

/-- The memory is used up. -/
theorem Outcome.of_overrun (hgo : bothLeft a b s = true) (hstep : mergeStep a b s = .error .overrun)
    (hroom : ¬HasRoom cap (flat (done ++ (sweep mode as bs).1)).length) :
    Outcome a b xs ys cap s mode as bs done where
  ends _ hroom' := absurd hroom' hroom
  overruns _ := settles_turn_error hgo hstep
  stuck _ fuel s' hrun := by
    have hsettled := (settles_of_loop hrun (fun h => nomatch h)).unique (settles_turn_error hgo hstep)
    cases hsettled

/-- An index has wrapped. -/
theorem Outcome.of_never (hwide : 2 ^ 32 ≤ cap) (hnever : ∀ fuel s', mergeLoop a b fuel s ≠ .ok s')
    (hcount : ¬Counts s mode as bs) : Outcome a b xs ys cap s mode as bs done where
  ends hcount' := absurd hcount' hcount
  overruns hroom := absurd (Or.inl hwide) hroom
  stuck _ := hnever

/-- The sweep is over. -/
theorem Outcome.of_exit (h : Counting cap xs ys s (sweep mode as bs).2.1 (sweep mode as bs).2.2
    (done ++ (sweep mode as bs).1)) (hgo : bothLeft a b s = false) (hcount : Counts s mode as bs) :
    Outcome a b xs ys cap s mode as bs done where
  ends _ _ := ⟨s, settles_exit hgo, h⟩
  overruns hroom := absurd h.room hroom
  stuck hcount' := absurd hcount hcount'

/-! ## Counting zeros

Three things may happen to the two runs that come next, and each is a turn of the loop: the one ends before the other
starts, or the other way round, or they overlap. In the first two cases a whole run is written, in the third its start
only. -/

theorem bothLeft_of_lt (hin : Inputs a b xs ys cap) (hai : s.ai < xs.length) (hbi : s.bi < ys.length) :
    bothLeft a b s = true := by
  unfold bothLeft
  rw [hin.left.size, hin.right.size, Bool.and_eq_true, decide_eq_true_iff, decide_eq_true_iff]
  exact ⟨hai, hbi⟩

/-- With a run left in each input the loop goes on. -/
theorem Counting.bothLeft (h : Counting cap xs ys s (r :: as) (t :: bs) done) (hin : Inputs a b xs ys cap) :
    bothLeft a b s = true :=
  bothLeft_of_lt hin (Nat.lt_of_lt_of_le (Nat.lt_add_of_pos_right Nat.two_pos) h.left.length)
    (Nat.lt_of_lt_of_le (Nat.lt_add_of_pos_right Nat.two_pos) h.right.length)

/-- The assertion of the counting-zero case holds. -/
theorem Counting.even (h : Counting cap xs ys s as bs done) : s.ai % 2 = 0 ∧ s.bi % 2 = 0 ∧ s.oi % 2 = 0 := by
  refine ⟨h.left.even, h.right.even, ?_⟩
  rw [h.oi, length_flat]
  omega

/-- The flag of the loop agrees with the mode of the sweep. -/
theorem Counting.step_eq (h : Counting cap xs ys s as bs done) : mergeStep a b s = zeroStep a b s := by
  unfold mergeStep
  rw [if_pos h.zero]

/-- A run is two entries. -/
theorem length_flat_concat : (flat (done ++ [r])).length = (flat done).length + 2 := by
  rw [flat_append, List.length_append]
  rfl

theorem after_mod (n k : Nat) : after (n % 2 ^ 32) k = (n + k) % 2 ^ 32 := by
  unfold after
  omega

/-- A run of ones of the first input ends before the second's starts. -/
theorem Counting.step_first (h : Counting cap xs ys s (r :: as) (t :: bs) done) (hin : Inputs a b xs ys cap)
    (hle : r.stop ≤ t.start) :
    mergeStep a b s = takeTwo a s.o s.ai ((flat done).length % 2 ^ 32) >>= fun o =>
      .ok { s with ai := after s.ai 2, oi := after s.oi 2, o := o } := by
  have hspans := spans_of_fits hin.left hin.right ((h.left.fits h.right.getElem?.1).mpr hle)
  rw [h.step_eq, zeroStep_first h.even hspans, ← h.oi]

/-- With room for it, the run of the first input is written, and the sweep goes on behind it. -/
theorem Counting.first (h : Counting cap xs ys s (r :: as) (t :: bs) done) (hin : Inputs a b xs ys cap)
    (hle : r.stop ≤ t.start) (hroom : HasRoom cap ((flat done).length + 2)) :
    ∃ s₁, mergeStep a b s = .ok s₁ ∧
      (s.ai + 2 < 2 ^ 32 → Counting cap xs ys s₁ as (t :: bs) (done ++ [r]) ∧ s₁.ai = s.ai + 2 ∧ s₁.bi = s.bi) ∧
      (2 ^ 32 ≤ s.ai + 2 → Stuck xs ys s₁) := by
  obtain ⟨hstart, hstop⟩ := h.left.getElem?
  have hother := h.right.getElem?.1
  obtain ⟨o, ho, hwritten⟩ := h.written.putTwo hroom (hin.left.entry hstart) (hin.left.entry hstop)
  refine ⟨{ s with ai := after s.ai 2, oi := after s.oi 2, o := o }, ?_, ?_, ?_⟩
  · rw [h.step_first hin hle, ho]
    rfl
  · intro hsmall
    refine ⟨⟨h.zero, ?_, h.right, ?_, ?_, ?_⟩, after_two hsmall, rfl⟩
    · show AtStart xs (after s.ai 2) as
      rw [after_two hsmall]
      exact h.left.next hsmall
    · show after s.oi 2 = _
      rw [h.oi, after_mod, length_flat_concat]
    · rw [flat_append]
      exact hwritten
    · rw [length_flat_concat]
      exact hroom
  · intro hwrap
    have hlen := h.left.length
    have heven := h.left.even
    have hsmall := h.left.small
    rw [after_one (by omega)] at hstop
    refine .left (by omega) (Nat.mod_lt _ (by decide)) (List.getElem?_eq_some_iff.mp hother).1 ?_
    intro k hk _
    have hbefore : after k 1 < 2 ^ 32 := Nat.mod_lt _ (by decide)
    exact fits_of_le hin.left_up hstop (by omega) hother hle

/-- A run of ones of the second input ends before the first's starts. -/
theorem Counting.step_second (h : Counting cap xs ys s (r :: as) (t :: bs) done) (hin : Inputs a b xs ys cap)
    (hgt : ¬r.stop ≤ t.start) (hle : t.stop ≤ r.start) :
    mergeStep a b s = takeTwo b s.o s.bi ((flat done).length % 2 ^ 32) >>= fun o =>
      .ok { s with bi := after s.bi 2, oi := after s.oi 2, o := o } := by
  have hright := h.right.getElem?.1
  have hno := spans_of_not_fits hin.left hin.right (List.getElem?_eq_some_iff.mp hright).1
    (fun hfits => hgt ((h.left.fits hright).mp hfits))
  have hspans := spans_of_fits hin.right hin.left ((h.right.fits h.left.getElem?.1).mpr hle)
  rw [h.step_eq, zeroStep_second h.even hno hspans, ← h.oi]

/-- With room for it, the run of the second input is written, and the sweep goes on behind it. -/
theorem Counting.second (h : Counting cap xs ys s (r :: as) (t :: bs) done) (hin : Inputs a b xs ys cap)
    (hgt : ¬r.stop ≤ t.start) (hle : t.stop ≤ r.start) (hroom : HasRoom cap ((flat done).length + 2)) :
    ∃ s₁, mergeStep a b s = .ok s₁ ∧
      (s.bi + 2 < 2 ^ 32 → Counting cap xs ys s₁ (r :: as) bs (done ++ [t]) ∧ s₁.ai = s.ai ∧ s₁.bi = s.bi + 2) ∧
      (2 ^ 32 ≤ s.bi + 2 → Stuck xs ys s₁) := by
  obtain ⟨hstart, hstop⟩ := h.right.getElem?
  obtain ⟨hother, hother'⟩ := h.left.getElem?
  obtain ⟨o, ho, hwritten⟩ := h.written.putTwo hroom (hin.right.entry hstart) (hin.right.entry hstop)
  refine ⟨{ s with bi := after s.bi 2, oi := after s.oi 2, o := o }, ?_, ?_, ?_⟩
  · rw [h.step_second hin hgt hle, ho]
    rfl
  · intro hsmall
    refine ⟨⟨h.zero, h.left, ?_, ?_, ?_, ?_⟩, rfl, after_two hsmall⟩
    · show AtStart ys (after s.bi 2) bs
      rw [after_two hsmall]
      exact h.right.next hsmall
    · show after s.oi 2 = _
      rw [h.oi, after_mod, length_flat_concat]
    · rw [flat_append]
      exact hwritten
    · rw [length_flat_concat]
      exact hroom
  · intro hwrap
    have hlen := h.right.length
    have heven := h.right.even
    have hsmall := h.right.small
    rw [after_one (by omega)] at hstop
    refine .right (by omega) (Nat.mod_lt _ (by decide)) (List.getElem?_eq_some_iff.mp hother).1 ?_
    intro k hk hparity
    have hbefore : after k 1 < 2 ^ 32 := Nat.mod_lt _ (by decide)
    refine ⟨?_, fits_of_le hin.right_up hstop (by omega) hother hle⟩
    -- the first input's stop is behind every entry that the second one's index can be at
    rintro ⟨p, q, hp, hq, hpq⟩
    obtain rfl := Option.some.inj (hother'.symm.trans hp)
    have hq' := getElem?_le hin.right_up hq hstop (by omega)
    have hrun : r.start < r.stop := by
      refine getElem?_lt hin.left_up hother hother' ?_
      rw [after_one h.left.stop.small]
      exact Nat.lt_succ_self _
    exact Nat.not_lt_of_le (Nat.le_trans hpq (Nat.le_trans hq' hle)) hrun

/-- The two runs of ones overlap. -/
theorem Counting.step_meet (h : Counting cap xs ys s (r :: as) (t :: bs) done) (hin : Inputs a b xs ys cap)
    (hgt : ¬r.stop ≤ t.start) (hgt' : ¬t.stop ≤ r.start) :
    mergeStep a b s = s.o.put ((flat done).length % 2 ^ 32) (if r.start < t.start then r.start else t.start) >>=
      fun o => .ok ⟨after s.ai 1, after s.bi 1, after s.oi 1, false, o⟩ := by
  have hleft := h.left.getElem?.1
  have hright := h.right.getElem?.1
  have hlen := h.left.length
  have hlen' := h.right.length
  have hno := spans_of_not_fits hin.left hin.right (List.getElem?_eq_some_iff.mp hright).1
    (fun hfits => hgt ((h.left.fits hright).mp hfits))
  have hno' := spans_of_not_fits hin.right hin.left (List.getElem?_eq_some_iff.mp hleft).1
    (fun hfits => hgt' ((h.right.fits hleft).mp hfits))
  have hleast : least a b s.ai s.bi = .ok (if r.start < t.start then r.start else t.start) := by
    have hmore : ¬s.ai = a.size - 1 := by
      rw [hin.left.size]
      omega
    have hmore' : ¬s.bi = b.size - 1 := by
      rw [hin.right.size]
      omega
    unfold least
    rw [hin.left.entry hleft, hin.right.entry hright]
    show (if r.start < t.start then if s.ai = a.size - 1 then _ else _ else if s.bi = b.size - 1 then _ else _) = _
    rw [if_neg hmore, if_neg hmore']
    split
    · rfl
    · rfl
  rw [h.step_eq, zeroStep_meet h.even hno hno', hleast, ← h.oi]
  rfl

/-- With room for its start, a group is opened; both inputs are then before the stops of their runs. -/
theorem Counting.meet (h : Counting cap xs ys s (r :: as) (t :: bs) done) (hin : Inputs a b xs ys cap)
    (hgt : ¬r.stop ≤ t.start) (hgt' : ¬t.stop ≤ r.start) (hroom : HasRoom cap ((flat done).length + 1)) :
    ∃ s₁, mergeStep a b s = .ok s₁ ∧
      Grouping cap xs ys s₁ ⟨if r.start < t.start then r.start else t.start, r.stop, t.stop⟩ as bs done ∧
      s₁.ai = s.ai + 1 ∧ s₁.bi = s.bi + 1 := by
  have hleft := h.left.getElem?.1
  have hright := h.right.getElem?.1
  obtain ⟨o, ho, hwritten⟩ := h.written.put hroom (if r.start < t.start then r.start else t.start)
  have hai : after s.ai 1 = s.ai + 1 := after_one h.left.stop.small
  have hbi : after s.bi 1 = s.bi + 1 := after_one h.right.stop.small
  refine ⟨⟨after s.ai 1, after s.bi 1, after s.oi 1, false, o⟩, ?_, ⟨rfl, ?_, ?_, ?_, ?_, ?_, hwritten, ?_⟩, hai, hbi⟩
  · rw [h.step_meet hin hgt hgt', ho]
    rfl
  · show AtStop xs (after s.ai 1) _ as
    rw [hai]
    exact h.left.stop
  · show AtStop ys (after s.bi 1) _ bs
    rw [hbi]
    exact h.right.stop
  · intro v hv
    replace hv : xs[after s.ai 1 - 1]? = some v := hv
    rw [hai, Nat.add_sub_cancel] at hv
    obtain rfl := Option.some.inj (hleft.symm.trans hv)
    exact Nat.le_of_lt (Nat.lt_of_not_le hgt')
  · intro v hv
    replace hv : ys[after s.bi 1 - 1]? = some v := hv
    rw [hbi, Nat.add_sub_cancel] at hv
    obtain rfl := Option.some.inj (hright.symm.trans hv)
    exact Nat.le_of_lt (Nat.lt_of_not_le hgt)
  · show after s.oi 1 = _
    rw [h.oi, after_mod, List.length_append]
    rfl
  · rw [List.length_append]
    exact hroom

/-! ## Counting ones

The next stop of a run is compared with the starts in the other input. Nothing is written while the group goes on; the
turn that closes it writes the later one of the two stops. An index may wrap here: it moves on by two, and behind the
last entry of an input with `2 ^ 32` entries it is at the first one again. -/

variable {p q : Nat} {as' bs' : List (Streak Nat)}

/-- A stop that is still to be read is there, in each input. -/
theorem Grouping.bothLeft (h : Grouping cap xs ys s g as bs done) (hin : Inputs a b xs ys cap) :
    bothLeft a b s = true :=
  bothLeft_of_lt hin h.left.length h.right.length

/-- The assertion of the counting-one case holds. -/
theorem Grouping.odd (h : Grouping cap xs ys s g as bs done) : s.ai % 2 = 1 ∧ s.bi % 2 = 1 ∧ s.oi % 2 = 1 := by
  refine ⟨h.left.odd, h.right.odd, ?_⟩
  rw [h.oi, List.length_append, length_flat, List.length_singleton]
  omega

/-- The flag of the loop agrees with the mode of the sweep. -/
theorem Grouping.step_eq (h : Grouping cap xs ys s g as bs done) : mergeStep a b s = oneStep a b s := by
  unfold mergeStep
  rw [if_neg (by rw [h.one]; decide)]

/-- The first input's index is the last one, and the next is its first entry. -/
theorem Grouping.stuck_left (h : Grouping cap xs ys s g as bs done) (hin : Inputs a b xs ys cap)
    (hwrap : 2 ^ 32 ≤ s.ai + 1) : Stuck xs ys s := by
  have hlen := h.left.length
  have hodd := h.left.odd
  have hsmall := h.left.small
  have hv := List.getElem?_eq_getElem (show s.ai - 1 < xs.length by omega)
  refine .left (by omega) hsmall h.right.length ?_
  intro k hk hparity
  have hnext : after k 1 ≤ s.ai - 1 := by
    unfold after
    omega
  exact fits_of_le hin.left_up hv hnext h.right.getElem? (h.left_reached hv)

/-- The second input's index is the last one, when there is nothing to take from the first. -/
theorem Grouping.stuck_right (h : Grouping cap xs ys s g as bs done) (hin : Inputs a b xs ys cap)
    (hsmall : s.ai + 1 < 2 ^ 32) (hr : reach g.right as = none) (hwrap : 2 ^ 32 ≤ s.bi + 1) : Stuck xs ys s := by
  have hlen := h.right.length
  have hodd := h.right.odd
  have hsmall' := h.right.small
  have hv := List.getElem?_eq_getElem (show s.bi - 1 < ys.length by omega)
  refine .right (by omega) hsmall' h.left.length ?_
  intro k hk hparity
  have hnext : after k 1 ≤ s.bi - 1 := by
    unfold after
    omega
  refine ⟨?_, fits_of_le hin.right_up hv hnext h.left.getElem? (h.right_reached hv)⟩
  rintro ⟨p, q, hp, hq, hle⟩
  have hq' := getElem?_le hin.right_up hq h.right.getElem? (show k ≤ s.bi by omega)
  exact h.left.not_fits hsmall h.right.getElem? hr ⟨p, _, hp, h.right.getElem?, Nat.le_trans hle hq'⟩

/-- The next run of ones of the first input starts in the group. -/
theorem Grouping.joinLeft (h : Grouping cap xs ys s g as bs done) (hin : Inputs a b xs ys cap)
    (hsmall : s.ai + 1 < 2 ^ 32) (hr : reach g.right as = some (p, as')) :
    ∃ s₁, mergeStep a b s = .ok s₁ ∧ Grouping cap xs ys s₁ ⟨g.start, p, g.right⟩ as' bs done ∧
      s₁.ai = s.ai + 2 ∧ s₁.bi = s.bi := by
  obtain ⟨r, rfl, rfl, hle⟩ := reach_eq_some hr
  have hspans := spans_of_fits hin.left hin.right (h.left.fits_of_reach hsmall h.right.getElem? rfl hle)
  have hnext := (h.left.start hsmall).stop
  have hai : after s.ai 2 = s.ai + 1 + 1 := after_two hnext.small
  refine ⟨{ s with ai := after s.ai 2 }, ?_, ⟨h.one, ?_, h.right, ?_, ?_, h.oi, h.written, h.room⟩, hai, rfl⟩
  · rw [h.step_eq, oneStep_left h.odd hspans]
  · show AtStop xs (after s.ai 2) _ as'
    rw [hai]
    exact hnext
  · intro v hv
    replace hv : xs[after s.ai 2 - 1]? = some v := hv
    rw [hai, Nat.add_sub_cancel] at hv
    obtain rfl := Option.some.inj ((h.left.start hsmall).getElem?.1.symm.trans hv)
    exact hle
  · intro v hv
    have hstops := getElem?_le hin.left_up h.left.getElem? hnext.getElem? (Nat.le_add_right s.ai 2)
    exact Nat.le_trans (h.right_reached hv) hstops

/-- The next run of ones of the second input starts in the group. -/
theorem Grouping.joinRight (h : Grouping cap xs ys s g as bs done) (hin : Inputs a b xs ys cap)
    (hsmall : s.ai + 1 < 2 ^ 32) (hsmall' : s.bi + 1 < 2 ^ 32) (hr : reach g.right as = none)
    (hr' : reach g.left bs = some (q, bs')) :
    ∃ s₁, mergeStep a b s = .ok s₁ ∧ Grouping cap xs ys s₁ ⟨g.start, g.left, q⟩ as bs' done ∧
      s₁.ai = s.ai ∧ s₁.bi = s.bi + 2 := by
  obtain ⟨t, rfl, rfl, hle⟩ := reach_eq_some hr'
  have hno := spans_of_not_fits hin.left hin.right h.right.length (h.left.not_fits hsmall h.right.getElem? hr)
  have hspans := spans_of_fits hin.right hin.left (h.right.fits_of_reach hsmall' h.left.getElem? rfl hle)
  have hnext := (h.right.start hsmall').stop
  have hbi : after s.bi 2 = s.bi + 1 + 1 := after_two hnext.small
  refine ⟨{ s with bi := after s.bi 2 }, ?_, ⟨h.one, h.left, ?_, ?_, ?_, h.oi, h.written, h.room⟩, rfl, hbi⟩
  · rw [h.step_eq, oneStep_right h.odd hno hspans]
  · show AtStop ys (after s.bi 2) _ bs'
    rw [hbi]
    exact hnext
  · intro v hv
    have hstops := getElem?_le hin.right_up h.right.getElem? hnext.getElem? (Nat.le_add_right s.bi 2)
    exact Nat.le_trans (h.left_reached hv) hstops
  · intro v hv
    replace hv : ys[after s.bi 2 - 1]? = some v := hv
    rw [hbi, Nat.add_sub_cancel] at hv
    obtain rfl := Option.some.inj ((h.right.start hsmall').getElem?.1.symm.trans hv)
    exact hle

/-- Nothing more starts in the group: what its stop is put to, and the next turn counts zeros. -/
theorem Grouping.step_flush (h : Grouping cap xs ys s g as bs done) (hin : Inputs a b xs ys cap)
    (hsmall : s.ai + 1 < 2 ^ 32) (hsmall' : s.bi + 1 < 2 ^ 32) (hr : reach g.right as = none)
    (hr' : reach g.left bs = none) :
    mergeStep a b s = s.o.put ((flat done ++ [g.start]).length % 2 ^ 32) (max g.left g.right) >>= fun o =>
      .ok ⟨after s.ai 1, after s.bi 1, after s.oi 1, true, o⟩ := by
  have hno := spans_of_not_fits hin.left hin.right h.right.length (h.left.not_fits hsmall h.right.getElem? hr)
  have hno' := spans_of_not_fits hin.right hin.left h.left.length (h.right.not_fits hsmall' h.left.getElem? hr')
  rw [h.step_eq, oneStep_flush h.odd hno hno' (hin.left.entry h.left.getElem?) (hin.right.entry h.right.getElem?),
    ← h.oi]

/-- With room for its stop the group is closed, and it is one more run of what is put together. -/
theorem Grouping.flush (h : Grouping cap xs ys s g as bs done) (hin : Inputs a b xs ys cap)
    (hsmall : s.ai + 1 < 2 ^ 32) (hsmall' : s.bi + 1 < 2 ^ 32) (hr : reach g.right as = none)
    (hr' : reach g.left bs = none) (hroom : HasRoom cap ((flat done).length + 2)) :
    ∃ s₁, mergeStep a b s = .ok s₁ ∧ Counting cap xs ys s₁ as bs (done ++ [⟨g.start, max g.left g.right⟩]) ∧
      s₁.ai = s.ai + 1 ∧ s₁.bi = s.bi + 1 := by
  have hlen : (flat done ++ [g.start]).length = (flat done).length + 1 := List.length_append
  obtain ⟨o, ho, hwritten⟩ := h.written.put (by rw [hlen]; exact hroom) (max g.left g.right)
  have hai : after s.ai 1 = s.ai + 1 := after_one hsmall
  have hbi : after s.bi 1 = s.bi + 1 := after_one hsmall'
  refine ⟨⟨after s.ai 1, after s.bi 1, after s.oi 1, true, o⟩, ?_, ⟨rfl, ?_, ?_, ?_, ?_, ?_⟩, hai, hbi⟩
  · rw [h.step_flush hin hsmall hsmall' hr hr', ho]
    rfl
  · show AtStart xs (after s.ai 1) as
    rw [hai]
    exact h.left.start hsmall
  · show AtStart ys (after s.bi 1) bs
    rw [hbi]
    exact h.right.start hsmall'
  · show after s.oi 1 = _
    rw [h.oi, after_mod, length_flat_concat, hlen]
  · rw [List.append_assoc] at hwritten
    rw [flat_append]
    exact hwritten
  · rw [length_flat_concat]
    exact hroom

/-! ## The whole loop

One induction, by `Streak.sweep_induct`: the cases of the sweep are the turns above. -/

/-- **The loop sweeps**: from anywhere in a sweep, it comes to what the rest of the sweep says. -/
theorem outcome (hin : Inputs a b xs ys cap) (mode : Option (Cluster Nat)) (as bs : List (Streak Nat))
    (s : MergeState) (done : List (Streak Nat)) (h : Sweeping cap xs ys s mode as bs done) :
    Outcome a b xs ys cap s mode as bs done := by
  induction mode, as, bs using sweep_induct generalizing s done with
  | nil bs =>
      replace h : Counting cap xs ys s [] bs done := h
      refine .of_exit (by rwa [sweep_nil, List.append_nil]) ?_ ?_
      · unfold bothLeft
        rw [hin.left.size, decide_eq_false (Nat.not_lt_of_le h.left.nil)]
        rfl
      · rw [counts_iff, sweep_nil]
        have hai := h.left.small
        have hbi := h.right.small
        simp
        omega
  | nil_right as =>
      replace h : Counting cap xs ys s as [] done := h
      refine .of_exit (by rwa [sweep_nil_right, List.append_nil]) ?_ ?_
      · unfold bothLeft
        rw [hin.right.size, decide_eq_false (Nat.not_lt_of_le h.right.nil), Bool.and_false]
      · rw [counts_iff, sweep_nil_right]
        have hai := h.left.small
        have hbi := h.right.small
        simp
        omega
  | first r as t bs hle ih =>
      replace h : Counting cap xs ys s (r :: as) (t :: bs) done := h
      have hlen := (sweep_length none as (t :: bs)).1
      by_cases hroom : HasRoom cap ((flat done).length + 2)
      · obtain ⟨s₁, hstep, hnext, hstuck⟩ := h.first hin hle hroom
        by_cases hsmall : s.ai + 2 < 2 ^ 32
        · obtain ⟨hcounting, hai, hbi⟩ := hnext hsmall
          refine (ih s₁ (done ++ [r]) hcounting).of_turn (h.bothLeft hin) hstep ?_ ?_ ?_
          · rw [sweep_cons, if_pos hle, List.append_assoc]
            rfl
          · rw [sweep_cons, if_pos hle]
          · rw [counts_iff, counts_iff, sweep_cons, if_pos hle, hai, hbi]
            simp only [List.length_cons] at hlen ⊢
            omega
        · have hstuck := hstuck (Nat.le_of_not_lt hsmall)
          refine .of_never (hstuck.wide hin) (never_of_turn (h.bothLeft hin) hstep (hstuck.never hin)) ?_
          rw [counts_iff, sweep_cons, if_pos hle]
          simp only [List.length_cons] at hlen ⊢
          omega
      · refine .of_overrun (h.bothLeft hin) ?_ ?_
        · obtain ⟨hstart, hstop⟩ := h.left.getElem?
          rw [h.step_first hin hle, h.written.putTwo_overrun h.room hroom (hin.left.entry hstart) (hin.left.entry hstop)]
          rfl
        · rw [sweep_cons, if_pos hle]
          refine fun hall => hroom (hall.mono ?_)
          rw [flat_append, List.length_append, flat_cons, List.length_cons, List.length_cons]
          omega
  | second r as t bs hgt hle ih =>
      replace h : Counting cap xs ys s (r :: as) (t :: bs) done := h
      have hlen := (sweep_length none (r :: as) bs).2.1
      by_cases hroom : HasRoom cap ((flat done).length + 2)
      · obtain ⟨s₁, hstep, hnext, hstuck⟩ := h.second hin hgt hle hroom
        by_cases hsmall : s.bi + 2 < 2 ^ 32
        · obtain ⟨hcounting, hai, hbi⟩ := hnext hsmall
          refine (ih s₁ (done ++ [t]) hcounting).of_turn (h.bothLeft hin) hstep ?_ ?_ ?_
          · rw [sweep_cons, if_neg hgt, if_pos hle, List.append_assoc]
            rfl
          · rw [sweep_cons, if_neg hgt, if_pos hle]
          · rw [counts_iff, counts_iff, sweep_cons, if_neg hgt, if_pos hle, hai, hbi]
            simp only [List.length_cons] at hlen ⊢
            omega
        · have hstuck := hstuck (Nat.le_of_not_lt hsmall)
          refine .of_never (hstuck.wide hin) (never_of_turn (h.bothLeft hin) hstep (hstuck.never hin)) ?_
          rw [counts_iff, sweep_cons, if_neg hgt, if_pos hle]
          simp only [List.length_cons] at hlen ⊢
          omega
      · refine .of_overrun (h.bothLeft hin) ?_ ?_
        · obtain ⟨hstart, hstop⟩ := h.right.getElem?
          rw [h.step_second hin hgt hle,
            h.written.putTwo_overrun h.room hroom (hin.right.entry hstart) (hin.right.entry hstop)]
          rfl
        · rw [sweep_cons, if_neg hgt, if_pos hle]
          refine fun hall => hroom (hall.mono ?_)
          rw [flat_append, List.length_append, flat_cons, List.length_cons, List.length_cons]
          omega
  | meet r as t bs hgt hgt' ih =>
      replace h : Counting cap xs ys s (r :: as) (t :: bs) done := h
      have hlen := sweep_length (some ⟨if r.start < t.start then r.start else t.start, r.stop, t.stop⟩) as bs
      by_cases hroom : HasRoom cap ((flat done).length + 1)
      · obtain ⟨s₁, hstep, hgrouping, hai, hbi⟩ := h.meet hin hgt hgt' hroom
        refine (ih s₁ done hgrouping).of_turn (h.bothLeft hin) hstep ?_ ?_ ?_
        · rw [sweep_cons, if_neg hgt, if_neg hgt']
        · rw [sweep_cons, if_neg hgt, if_neg hgt']
        · rw [counts_iff, counts_iff, sweep_cons, if_neg hgt, if_neg hgt', hai, hbi]
          simp only [List.length_cons, Option.isSome_some, Option.isSome_none, if_true] at hlen ⊢
          simp
          omega
      · refine .of_overrun (h.bothLeft hin) ?_ ?_
        · rw [h.step_meet hin hgt hgt', h.written.put_overrun h.room hroom]
          rfl
        · rw [sweep_cons, if_neg hgt, if_neg hgt']
          refine fun hall => hroom (hall.mono ?_)
          have hsome := List.length_pos_iff.mpr (sweep_ne_nil
            (some ⟨if r.start < t.start then r.start else t.start, r.stop, t.stop⟩) as bs (Or.inl rfl))
          rw [flat_append, List.length_append, length_flat (l := (sweep _ as bs).1)]
          omega
  | left g as bs p as' hr ih =>
      replace h : Grouping cap xs ys s g as bs done := h
      have hlen := (sweep_length (some ⟨g.start, p, g.right⟩) as' bs).1
      by_cases hsmall : s.ai + 1 < 2 ^ 32
      · obtain ⟨s₁, hstep, hgrouping, hai, hbi⟩ := h.joinLeft hin hsmall hr
        refine (ih s₁ done hgrouping).of_turn (h.bothLeft hin) hstep ?_ ?_ ?_
        · rw [sweep_left hr]
        · rw [sweep_left hr]
        · rw [counts_iff, counts_iff, sweep_left hr, hai, hbi]
          obtain ⟨r, rfl, -⟩ := reach_eq_some hr
          simp only [List.length_cons, Option.isSome_some, if_true] at hlen ⊢
          omega
      · have hstuck := h.stuck_left hin (Nat.le_of_not_lt hsmall)
        refine .of_never (hstuck.wide hin) (hstuck.never hin) ?_
        rw [counts_iff]
        simp only [Option.isSome_some, if_true]
        omega
  | right g as bs q bs' hr hr' ih =>
      replace h : Grouping cap xs ys s g as bs done := h
      have hlen := (sweep_length (some ⟨g.start, g.left, q⟩) as bs').2.1
      by_cases hsmall : s.ai + 1 < 2 ^ 32 ∧ s.bi + 1 < 2 ^ 32
      · obtain ⟨s₁, hstep, hgrouping, hai, hbi⟩ := h.joinRight hin hsmall.1 hsmall.2 hr hr'
        refine (ih s₁ done hgrouping).of_turn (h.bothLeft hin) hstep ?_ ?_ ?_
        · rw [sweep_right hr hr']
        · rw [sweep_right hr hr']
        · rw [counts_iff, counts_iff, sweep_right hr hr', hai, hbi]
          obtain ⟨t, rfl, -⟩ := reach_eq_some hr'
          simp only [List.length_cons, Option.isSome_some, if_true] at hlen ⊢
          omega
      · have hstuck : Stuck xs ys s := by
          by_cases hsmall' : s.ai + 1 < 2 ^ 32
          · exact h.stuck_right hin hsmall' hr (Nat.le_of_not_lt fun hlt => hsmall ⟨hsmall', hlt⟩)
          · exact h.stuck_left hin (Nat.le_of_not_lt hsmall')
        refine .of_never (hstuck.wide hin) (hstuck.never hin) ?_
        rw [counts_iff]
        simp only [Option.isSome_some, if_true]
        omega
  | flush g as bs hr hr' ih =>
      replace h : Grouping cap xs ys s g as bs done := h
      have hlen : (flat done ++ [g.start]).length = (flat done).length + 1 := List.length_append
      by_cases hsmall : s.ai + 1 < 2 ^ 32 ∧ s.bi + 1 < 2 ^ 32
      · by_cases hroom : HasRoom cap ((flat done).length + 2)
        · obtain ⟨s₁, hstep, hcounting, hai, hbi⟩ := h.flush hin hsmall.1 hsmall.2 hr hr' hroom
          refine (ih s₁ _ hcounting).of_turn (h.bothLeft hin) hstep ?_ ?_ ?_
          · rw [sweep_flush hr hr', List.append_assoc]
            rfl
          · rw [sweep_flush hr hr']
          · rw [counts_iff, counts_iff, sweep_flush hr hr', hai, hbi]
            simp
        · refine .of_overrun (h.bothLeft hin) ?_ ?_
          · rw [h.step_flush hin hsmall.1 hsmall.2 hr hr',
              h.written.put_overrun h.room (by rw [hlen]; exact hroom)]
            rfl
          · rw [sweep_flush hr hr']
            refine fun hall => hroom (hall.mono ?_)
            rw [flat_append, List.length_append, flat_cons, List.length_cons, List.length_cons]
            omega
      · have hstuck : Stuck xs ys s := by
          by_cases hsmall' : s.ai + 1 < 2 ^ 32
          · exact h.stuck_right hin hsmall' hr (Nat.le_of_not_lt fun hlt => hsmall ⟨hsmall', hlt⟩)
          · exact h.stuck_left hin (Nat.le_of_not_lt hsmall')
        refine .of_never (hstuck.wide hin) (hstuck.never hin) ?_
        rw [counts_iff]
        simp only [Option.isSome_some, if_true]
        omega

end Outcome

end Bitsums
end FOrder.Futurerd
