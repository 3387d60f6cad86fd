import FOrder.Futurerd.BitsumsGet
import FOrder.Futurerd.BitsumsWide
import FOrder.Lib.StreakGroups

/-!
# `Futurerd.BitsumsExact` — when `merge` is union

`merge` makes room for the longer of its inputs only. Inputs whose runs of ones lie one between the other come out
longer than that, and what they write is behind the buffer. Besides, its counts are 32-bit numbers. Here is when it
is union nevertheless, and when it stays in its memory, as conditions on the two sets.

The loop is done with in `BitsumsSweep`. What is behind it, `finish`, gets the runs that are still there: `kept`,
since a count of the output that has wrapped leaves only the runs after the last multiple of `2 ^ 31`. The runs of
one input that are left over are appended, and runs that touch are joined. So the code computes `Streak.squish` of
these runs (`Counting.finish`), it covers what the union does exactly when none has been lost (`kept_of_covers`),
and it does not return at all when there are too many of them (`Counting.finish_wide`), or none (`finish_empty`).

`unites_iff` and `merge_overrun_exact` put the cases together. In both, `Streak.sweep` is the means only: `Roomy`
and `Mergeable` count runs and points of the two sets, and `roomy_iff` and `mergeable_iff` connect them to the sweep
by the counting lemmas of `Lib.StreakGroups`.
-/

namespace FOrder.Futurerd
namespace Bitsums
open Streak

/-! ## Behind the loop

What the code makes of the runs that the loop has written. The count of the output is a 32-bit number, and a count
that has wrapped makes the code forget what is in front, although it lies in memory. -/

/-- What `merge` does behind its loop. -/
def finish (a b : Bitsums) (fuel : Nat) (s : MergeState) : Except Stop Bitsums := do
  let o ← copyLeftOver a b s
  let o ← o.squish fuel
  o.validate fuel
  return o

/-- The runs that are still there when the loop ends: 32 bits number `2 ^ 31` of them. -/
def kept (done : List (Streak Nat)) : List (Streak Nat) := done.drop (2 ^ 31 * (2 * done.length / 2 ^ 32))

section Finish

variable {a b : Bitsums} {xs ys : List Nat} {cap : Nat} {s : MergeState} {as bs done l : List (Streak Nat)}
  {r : Streak Nat}

/-- Nothing is lost as long as the count fits. -/
theorem kept_eq (h : 2 * done.length < 2 ^ 32) : kept done = done := by
  unfold kept
  rw [Nat.div_eq_of_lt h]
  rfl

/-- The 32-bit count is the number of entries that are kept. -/
theorem length_kept : 2 * (kept done).length = 2 * done.length % 2 ^ 32 := by
  unfold kept
  rw [List.length_drop]
  omega

theorem mem_of_mem_kept (h : r ∈ kept done) : r ∈ done := List.mem_of_mem_drop h

/-- The runs that are kept are in order, with those left over behind them. -/
theorem ordered_kept (h : Ordered (done ++ l)) : Ordered (kept done ++ l) := by
  obtain ⟨hdone, hl, hrel⟩ := laid_append.mp h
  refine laid_append.mpr ⟨?_, hl, fun t ht => hrel t (mem_of_mem_kept ht)⟩
  exact ⟨hdone.order.sublist (List.drop_sublist _ _), fun t ht => hdone.nonempty t (mem_of_mem_kept ht)⟩

/-- The output, as long as its 32-bit count says. -/
theorem Written.holds {o : Bitsums} (h : Written cap o (flat done)) :
    (⟨o.data, (flat done).length % 2 ^ 32⟩ : Bitsums).Holds (flat (kept done)) where
  size := by
    rw [length_flat, length_flat, length_kept]
  entries := by
    intro k v hk
    have hlen : 2 * (kept done).length = _ := length_kept
    have hlt := (List.getElem?_eq_some_iff.mp hk).1
    rw [length_flat, length_kept] at hlt
    unfold kept at hk
    rw [← flat_drop, List.getElem?_drop] at hk
    have hread := h.entries hk (by rw [length_flat]; omega)
    rw [show (2 * (2 ^ 31 * (2 * done.length / 2 ^ 32)) + k) % 2 ^ 32 = k by omega] at hread
    exact hread

/-- `take_from`, in terms of runs: the rest of the other input is appended, when it begins where the output stops or
    behind. -/
theorem appendRest {o : Bitsums} {i : Nat} (ho : o.Holds (flat as)) (hne : as ≠ []) (ha : a.Holds xs)
    (h : AtStart xs i (r :: l)) (hrel : ∀ t ∈ as, t.stop ≤ r.start) :
    ∃ o', o.takeFrom a i = .ok o' ∧ o'.Holds (flat (as ++ r :: l)) := by
  obtain ⟨t, ht, hlast⟩ := exists_getLast?_flat hne
  have hparity : (flat as).length % 2 = i % 2 := by
    rw [length_flat, h.even, Nat.mul_mod_right]
  obtain ⟨o', htake, hholds, -⟩ := ho.takeFrom ha h.rest hlast (hrel t ht) hparity
  refine ⟨o', htake, ?_⟩
  rw [flat_append]
  exact hholds

/-- **What is left of one input is appended.** -/
theorem Counting.copyLeftOver (h : Counting cap xs ys s as bs done) (hin : Inputs a b xs ys cap)
    (hord : Ordered (done ++ (as ++ bs))) (hone : as = [] ∨ bs = []) (hkept : kept done ≠ []) :
    ∃ o, copyLeftOver a b s = .ok o ∧ o.Holds (flat (kept done ++ (as ++ bs))) := by
  have ho : ({ s.o with size := s.oi } : Bitsums).Holds (flat (kept done)) := by
    rw [h.oi]
    exact h.written.holds
  have hrel := (laid_append.mp hord).2.2
  unfold Bitsums.copyLeftOver
  cases as with
  | cons r as =>
      obtain rfl : bs = [] := hone.resolve_left (List.cons_ne_nil r as)
      have hlt : s.ai < a.size := by
        have hlen := h.left.length
        rw [hin.left.size]
        omega
      rw [List.append_nil] at hrel ⊢
      rw [if_pos hlt]
      exact appendRest ho hkept hin.left h.left fun t ht => hrel t (mem_of_mem_kept ht) r List.mem_cons_self
  | nil =>
      have hge : ¬s.ai < a.size := by
        rw [hin.left.size]
        exact Nat.not_lt_of_le h.left.nil
      rw [if_neg hge, List.nil_append]
      rw [List.nil_append] at hrel
      cases bs with
      | cons r bs =>
          have hlt : s.bi < b.size := by
            have hlen := h.right.length
            rw [hin.right.size]
            omega
          rw [if_pos hlt]
          exact appendRest ho hkept hin.right h.right fun t ht => hrel t (mem_of_mem_kept ht) r List.mem_cons_self
      | nil =>
          have hge' : ¬s.bi < b.size := by
            rw [hin.right.size]
            exact Nat.not_lt_of_le h.right.nil
          rw [if_neg hge', List.append_nil]
          exact ⟨_, rfl, ho⟩

/-- When nothing is there at the loop's end, there is no last entry to be looked at. -/
theorem takeFrom_empty {o o' : Bitsums} {i : Nat} (hsize : o.size = 0) : o.takeFrom a i ≠ .ok o' := by
  intro h
  unfold takeFrom at h
  obtain ⟨-, -, h⟩ := bind_eq_ok.mp h
  obtain ⟨-, -, h⟩ := bind_eq_ok.mp h
  obtain ⟨p, hlast, -⟩ := bind_eq_ok.mp h
  unfold last at hlast
  rw [if_pos hsize] at hlast
  cases hlast

theorem finish_empty (h : s.oi = 0) (fuel : Nat) (o' : Bitsums) : finish a b fuel s ≠ .ok o' := by
  intro hfinish
  unfold finish at hfinish
  obtain ⟨o, hcopy, hfinish⟩ := bind_eq_ok.mp hfinish
  obtain ⟨o₁, hsquish, -⟩ := bind_eq_ok.mp hfinish
  unfold Bitsums.copyLeftOver at hcopy
  split at hcopy
  · exact takeFrom_empty h hcopy
  · split at hcopy
    · exact takeFrom_empty h hcopy
    · cases hcopy
      exact squish_empty h fuel o₁ hsquish

/-- A return with some fuel is a return with all fuel from there on. -/
theorem settles_of_finish {fuel : Nat} {o' : Bitsums} (h : finish a b fuel s = .ok o') :
    Settles (fun fuel => finish a b fuel s) (.ok o') := by
  unfold finish at h ⊢
  obtain ⟨o, hcopy, h⟩ := bind_eq_ok.mp h
  obtain ⟨o₁, hsquish, h⟩ := bind_eq_ok.mp h
  obtain ⟨_, hvalidate, h⟩ := bind_eq_ok.mp h
  cases h
  rw [hcopy]
  exact (settles_of_squish hsquish).bind ((settles_of_validate hvalidate).bind (settles_const _))

/-- **What `merge` comes to behind its loop**: the runs that are still there, and those left over, with what touches
joined. -/
theorem Counting.finish (h : Counting cap xs ys s as bs done) (hin : Inputs a b xs ys cap)
    (hord : Ordered (done ++ (as ++ bs))) (hone : as = [] ∨ bs = []) (hkept : kept done ++ (as ++ bs) = r :: l)
    (hne : kept done ≠ []) (hsmall : (flat (r :: l)).length < 2 ^ 32) :
    ∃ o', Settles (fun fuel => finish a b fuel s) (.ok o') ∧ o'.Holds (flat (squishFrom r l)) := by
  have hord' : Ordered (r :: l) := by
    rw [← hkept]
    exact ordered_kept hord
  obtain ⟨o, hcopy, hholds⟩ := h.copyLeftOver hin hord hone hne
  rw [hkept] at hholds
  obtain ⟨o', hsquish, hholds'⟩ := hholds.squish hsmall
  have hup : (flat (squishFrom r l)).Pairwise (· < ·) := pairwise_flat.mpr (squishFrom_spec hord').1
  have hlen := length_squishFrom r l
  have hvalidate := hholds'.validate hup (by
    rw [length_flat] at hsmall ⊢
    omega)
  refine ⟨o', ?_, hholds'⟩
  unfold Bitsums.finish
  rw [hcopy]
  exact hsquish.bind (hvalidate.bind (settles_const (.ok o')))

/-- With `2 ^ 32` entries or more, `merge` does not return. -/
theorem Counting.finish_wide (h : Counting cap xs ys s as bs done) (hin : Inputs a b xs ys cap)
    (hord : Ordered (done ++ (as ++ bs))) (hone : as = [] ∨ bs = []) (hne : kept done ≠ [])
    (hwide : 2 ^ 32 ≤ (flat (kept done ++ (as ++ bs))).length) (fuel : Nat) (o' : Bitsums) :
    Bitsums.finish a b fuel s ≠ .ok o' := by
  intro hfinish
  obtain ⟨o, hcopy, hholds⟩ := h.copyLeftOver hin hord hone hne
  unfold Bitsums.finish at hfinish
  rw [hcopy, ok_bind] at hfinish
  obtain ⟨o₁, hsquish, -⟩ := bind_eq_ok.mp hfinish
  exact squish_wide (by rw [hholds.size]; exact hwide) fuel o₁ hsquish

end Finish

/-! ## `merge`

The conditions are stated on the two sets: `Roomy` counts groups, `Mergeable` adds the counts of entries. Both are
equivalent to what `BitsumsSweep` wants of a sweep, by `Lib.StreakGroups`, so the two theorems are equivalences. -/

/-- `merge` returns a set, and it is the union. -/
def Unites (a b o : Bitsums) (xs ys : List Nat) : Prop :=
  ∃ fuel o' zs, merge fuel a b o = .ok o' ∧ o'.Holds zs ∧ Valid zs ∧
    ∀ x, Denotes zs x ↔ Denotes xs x ∨ Denotes ys x

/-- The memory that `merge` has when its loop begins. -/
def mergeCap (o : Bitsums) (xs ys : List Nat) : Nat := max o.cap (max xs.length ys.length)

/-- There is memory for every group of runs of ones that begins while there are more runs in both inputs. -/
def Roomy (o : Bitsums) (xs ys : List Nat) : Prop :=
  HasRoom (mergeCap o xs ys)
    (2 * Set.ncard {p | Opens (unflat xs) (unflat ys) p ∧ Both (unflat xs) (unflat ys) p})

/-- And 32 bits are enough for the entries that are read in the loop, and for all that are written. -/
structure Mergeable (o : Bitsums) (xs ys : List Nat) : Prop where
  roomy : Roomy o xs ys
  left : 2 * Set.ncard {r | r ∈ unflat xs ∧ (Joined (unflat xs) (unflat ys) r.start ∨
    Both (unflat xs) (unflat ys) r.start)} < 2 ^ 32
  right : 2 * Set.ncard {r | r ∈ unflat ys ∧ (Joined (unflat xs) (unflat ys) r.start ∨
    Both (unflat xs) (unflat ys) r.start)} < 2 ^ 32
  total : 2 * Set.ncard {p | Opens (unflat xs) (unflat ys) p} < 2 ^ 32

section Merge

variable {a b o : Bitsums} {xs ys zs : List Nat}

/-- The numbers of a set are what its runs cover. -/
theorem denotes_flat {l : List (Streak Nat)} {x : Nat} : Denotes (flat l) x ↔ Covers l x := covers_iff_flat.symm

/-- The runs of ones of a set. -/
theorem Alternating.runs (h : Alternating xs) : flat (unflat xs) = xs ∧ Apart (unflat xs) := by
  have hflat := flat_unflat xs h.even
  refine ⟨hflat, ?_⟩
  rw [← pairwise_flat, hflat]
  exact h.increasing

/-- A set with entries has a run of ones. -/
theorem Valid.unflat_ne_nil (h : Valid xs) : unflat xs ≠ [] := by
  intro hnil
  have hflat := h.runs.1
  rw [hnil] at hflat
  exact h.nonempty hflat.symm

/-- Runs that are apart from one another are a set. -/
theorem Valid.of_apart {l : List (Streak Nat)} (h : Apart l) (hne : l ≠ []) : Valid (flat l) where
  even := by
    rw [length_flat, Nat.mul_mod_right]
  increasing := pairwise_flat.mpr h
  nonempty := by
    intro hnil
    have hlen := congrArg List.length hnil
    have hpos := List.length_pos_iff.mpr hne
    rw [length_flat, List.length_nil] at hlen
    omega

/-- Two sets can be swept. -/
theorem Alternating.good (hxs : Alternating xs) (hys : Alternating ys) : Good none (unflat xs) (unflat ys) :=
  ⟨hxs.runs.2, hys.runs.2⟩

/-- Room, in terms of a sweep. -/
theorem roomy_iff (hxs : Alternating xs) (hys : Alternating ys) (o : Bitsums) :
    Roomy o xs ys ↔ HasRoom (mergeCap o xs ys) (2 * (sweep none (unflat xs) (unflat ys)).1.length) := by
  unfold Roomy
  rw [length_sweep (hxs.good hys)]

/-- Room and counts, in terms of a sweep: what it reads of the first input and of the second, and what it puts
    together. -/
theorem mergeable_iff (hxs : Alternating xs) (hys : Alternating ys) (o : Bitsums) : Mergeable o xs ys ↔ Roomy o xs ys ∧
    2 * ((unflat xs).length - (sweep none (unflat xs) (unflat ys)).2.1.length) < 2 ^ 32 ∧
    2 * ((unflat ys).length - (sweep none (unflat xs) (unflat ys)).2.2.length) < 2 ^ 32 ∧
    2 * (swept none (unflat xs) (unflat ys)).length < 2 ^ 32 := by
  rw [length_used_left (hxs.good hys), length_used_right (hxs.good hys), length_swept (hxs.good hys)]
  exact ⟨fun h => ⟨h.roomy, h.left, h.right, h.total⟩, fun h => ⟨h.1, h.2.1, h.2.2.1, h.2.2.2⟩⟩

/-- Inputs that have less than `2 ^ 32` entries together need room only. -/
theorem mergeable_of_small (hxs : Alternating xs) (hys : Alternating ys) (hroomy : Roomy o xs ys)
    (hsmall : xs.length + ys.length < 2 ^ 32) : Mergeable o xs ys := by
  have hlen : 2 * (unflat xs).length = xs.length := by rw [← length_flat, hxs.runs.1]
  have hlen' : 2 * (unflat ys).length = ys.length := by rw [← length_flat, hys.runs.1]
  have hsum := (sweep_length none (unflat xs) (unflat ys)).2.2.1
  refine (mergeable_iff hxs hys o).mpr ⟨hroomy, by omega, by omega, ?_⟩
  unfold swept
  rw [List.length_append, List.length_append]
  simp only [Option.isSome_none] at hsum
  simp at hsum
  omega

/-- **Up to the loop**: the two inputs are before their first runs of ones, and there is memory for the longer. -/
theorem merge_begins (ha : a.Holds xs) (hxs : Alternating xs) (hb : b.Holds ys) (hys : Alternating ys) (ho : o.size = 0) :
    ∃ s, Counting (mergeCap o xs ys) xs ys s (unflat xs) (unflat ys) [] ∧ s.ai = 0 ∧ s.bi = 0 ∧
      ∀ fuel, merge fuel a b o = mergeLoop a b fuel s >>= finish a b fuel := by
  have hempty : o.Holds [] := ⟨ho, fun hi => nomatch hi⟩
  obtain ⟨o₁, hresize, hholds, hcap⟩ := hempty.resize (max xs.length ys.length)
  have hcheck : check (o₁.size = 0) = .ok () := check_of hholds.size
  refine ⟨⟨0, 0, 0, true, o₁⟩, ⟨rfl, ?_, ?_, rfl, ⟨hcap, fun hi => nomatch hi⟩, Or.inr (Nat.zero_le _)⟩, rfl, rfl, ?_⟩
  · exact ⟨hxs.runs.1.symm, rfl, Nat.two_pow_pos 32⟩
  · exact ⟨hys.runs.1.symm, rfl, Nat.two_pow_pos 32⟩
  · intro fuel
    unfold merge
    rw [ha.size, hb.size, hresize, ok_bind, hcheck, ok_bind]
    rfl

/-- The two sets are what `BitsumsSweep` asks for. -/
theorem inputs (ha : a.Holds xs) (hxs : Alternating xs) (hb : b.Holds ys) (hys : Alternating ys) (o : Bitsums) :
    Inputs a b xs ys (mergeCap o xs ys) where
  left := ha
  right := hb
  left_up := hxs.increasing
  right_up := hys.increasing
  left_le := Nat.le_trans (Nat.le_max_left _ _) (Nat.le_max_right _ _)
  right_le := Nat.le_trans (Nat.le_max_right _ _) (Nat.le_max_right _ _)

/-- The union, in terms of what a sweep puts together and leaves over. -/
theorem covers_union (hxs : Alternating xs) (hys : Alternating ys) (x : Nat) :
    Covers (swept none (unflat xs) (unflat ys)) x ↔ Denotes xs x ∨ Denotes ys x := by
  obtain ⟨hflat, hapart⟩ := hxs.runs
  obtain ⟨hflat', hapart'⟩ := hys.runs
  have hnone : ¬InGroup none x := fun ⟨g, hg, _⟩ => nomatch hg
  have hcovers := covers_swept none (unflat xs) (unflat ys) ⟨hapart, hapart'⟩ x
  rw [← denotes_flat (l := unflat xs), ← denotes_flat (l := unflat ys), hflat, hflat'] at hcovers
  exact hcovers.trans (or_iff_right hnone)

/-- The runs that the loop has lost are missing in the union. -/
theorem kept_of_covers {done rest : List (Streak Nat)} (hord : Ordered (done ++ rest))
    (h : ∀ x, Covers (done ++ rest) x → Covers (kept done ++ rest) x) : 2 * done.length < 2 ^ 32 := by
  refine Nat.lt_of_not_le ?_
  intro hwide
  cases done with
  | nil => exact absurd hwide (by decide)
  | cons r done =>
      have hfirst : Covers ((r :: done) ++ rest) r.start :=
        ⟨r, List.mem_append_left _ List.mem_cons_self, Nat.le_refl _, hord.head⟩
      obtain ⟨t, ht, hle, -⟩ := h r.start hfirst
      -- what is kept is behind the first run
      have hbehind : t ∈ done ++ rest := by
        rcases List.mem_append.mp ht with ht | ht
        · refine List.mem_append_left _ ?_
          obtain ⟨k, hk⟩ : ∃ k, 2 ^ 31 * (2 * (r :: done).length / 2 ^ 32) = k + 1 := by
            refine ⟨2 ^ 31 * (2 * (r :: done).length / 2 ^ 32) - 1, ?_⟩
            omega
          unfold kept at ht
          rw [hk] at ht
          exact List.mem_of_mem_drop ht
        · exact List.mem_append_right _ ht
      exact Nat.not_lt_of_le hle (Nat.lt_of_lt_of_le hord.head (hord.head_rel t hbehind))

/-- **`merge` is union** exactly when there is room and the counts fit. -/
theorem unites_iff (ha : a.Holds xs) (hxs : Valid xs) (hb : b.Holds ys) (hys : Valid ys) (ho : o.size = 0) :
    Unites a b o xs ys ↔ Mergeable o xs ys := by
  obtain ⟨s, hbegin, hai, hbi, hmerge⟩ := merge_begins ha hxs.toAlternating hb hys.toAlternating ho
  have hin := inputs ha hxs.toAlternating hb hys.toAlternating o
  have hord := ordered_swept none (unflat xs) (unflat ys) (hxs.good hys.toAlternating)
  have hunion := covers_union hxs.toAlternating hys.toAlternating
  have hone := (sweep_length none (unflat xs) (unflat ys)).2.2.2
  have hdone := sweep_ne_nil none (unflat xs) (unflat ys) (Or.inr ⟨hxs.unflat_ne_nil, hys.unflat_ne_nil⟩)
  obtain ⟨hends, hoverruns, hstuck⟩ := outcome hin none (unflat xs) (unflat ys) s [] hbegin
  have hcounts : Counts s none (unflat xs) (unflat ys) ↔
      2 * ((unflat xs).length - (sweep none (unflat xs) (unflat ys)).2.1.length) < 2 ^ 32 ∧
      2 * ((unflat ys).length - (sweep none (unflat xs) (unflat ys)).2.2.length) < 2 ^ 32 := by
    rw [counts_iff, hai, hbi]
    simp
  rw [List.nil_append] at hends hoverruns
  rw [mergeable_iff hxs.toAlternating hys.toAlternating]
  unfold swept at hord hunion ⊢
  constructor
  · rintro ⟨fuel, o', zs, hrun, hholds, hzs, hset⟩
    rw [hmerge] at hrun
    obtain ⟨s', hloop, hfinish⟩ := bind_eq_ok.mp hrun
    have hroomy : Roomy o xs ys := by
      by_contra hnot
      rw [roomy_iff hxs.toAlternating hys.toAlternating, ← length_flat] at hnot
      cases (settles_of_loop hloop (fun h => nomatch h)).unique (hoverruns hnot)
    have hcount : Counts s none (unflat xs) (unflat ys) := by
      by_contra hnot
      exact hstuck hnot fuel s' hloop
    obtain ⟨t, hsettles, hcounting⟩ := hends hcount (by
      rw [length_flat]
      exact (roomy_iff hxs.toAlternating hys.toAlternating o).mp hroomy)
    cases (settles_of_loop hloop (fun h => nomatch h)).unique hsettles
    have hkept : kept (sweep none (unflat xs) (unflat ys)).1 ≠ [] := by
      intro hnil
      refine finish_empty ?_ fuel o' hfinish
      rw [hcounting.oi, length_flat, ← length_kept, hnil]
      rfl
    have hsmall := Nat.lt_of_not_le fun hwide => hcounting.finish_wide hin hord hone hkept hwide fuel o' hfinish
    cases hrow : kept (sweep none (unflat xs) (unflat ys)).1 ++
        ((sweep none (unflat xs) (unflat ys)).2.1 ++ (sweep none (unflat xs) (unflat ys)).2.2) with
    | nil => exact absurd (List.append_eq_nil_iff.mp hrow).1 hkept
    | cons r l =>
        rw [hrow] at hsmall
        obtain ⟨o₁, hsettles₁, hholds₁⟩ := hcounting.finish hin hord hone hrow hkept hsmall
        cases (settles_of_finish hfinish).unique hsettles₁
        obtain rfl := hholds.unique hholds₁
        have hord' := ordered_kept hord
        rw [hrow] at hord'
        have hfew := kept_of_covers hord fun x hx => by
          rw [hrow, ← (squishFrom_spec hord').2.2, ← denotes_flat, hset, ← hunion]
          exact hx
        rw [← hrow, kept_eq hfew, length_flat] at hsmall
        exact ⟨hroomy, (hcounts.mp hcount).1, (hcounts.mp hcount).2, hsmall⟩
  · rintro ⟨hroomy, hleft, hright, htotal⟩
    obtain ⟨t, hsettles, hcounting⟩ := hends (hcounts.mpr ⟨hleft, hright⟩) (by
      rw [length_flat]
      exact (roomy_iff hxs.toAlternating hys.toAlternating o).mp hroomy)
    have hkept := kept_eq (show 2 * (sweep none (unflat xs) (unflat ys)).1.length < 2 ^ 32 by
      rw [List.length_append] at htotal
      omega)
    cases hrow : (sweep none (unflat xs) (unflat ys)).1 ++
        ((sweep none (unflat xs) (unflat ys)).2.1 ++ (sweep none (unflat xs) (unflat ys)).2.2) with
    | nil => exact absurd (List.append_eq_nil_iff.mp hrow).1 hdone
    | cons r l =>
        rw [← length_flat, hrow] at htotal
        obtain ⟨o', hsettles', hholds⟩ := hcounting.finish hin hord hone (by rw [hkept, hrow]) (by rwa [hkept]) htotal
        obtain ⟨fuel, hfuel⟩ := hsettles.bind hsettles'
        have hrun : merge fuel a b o = .ok o' := by
          rw [hmerge]
          exact hfuel fuel (Nat.le_refl fuel)
        rw [hrow] at hord
        refine ⟨fuel, o', flat (squishFrom r l), hrun, hholds,
          Valid.of_apart (squishFrom_spec hord).1 (squishFrom_ne_nil r l), ?_⟩
        intro x
        rw [denotes_flat, (squishFrom_spec hord).2.2, ← hrow]
        exact hunion x

/-- In wide memory nothing behind the loop overruns. -/
theorem Wide.finish {s : MergeState} (h : Wide s) (fuel : Nat) : Bitsums.finish a b fuel s ≠ .error .overrun := by
  unfold Bitsums.finish
  refine bind_ne_error copyLeftOver_ne_overrun fun o₁ hcopy => ?_
  refine bind_ne_error (squish_ne_overrun (Nat.le_trans h.cap (copyLeftOver_cap hcopy)) fuel) fun o₂ _ => ?_
  exact bind_ne_error (validate_ne_overrun fuel) fun _ _ => fun h => nomatch h

/-- With nothing put together the code stops at a read. -/
theorem finish_empty_ne_overrun {s : MergeState} (h : s.oi = 0) (fuel : Nat) :
    Bitsums.finish a b fuel s ≠ .error .overrun := by
  unfold Bitsums.finish
  refine bind_ne_error copyLeftOver_ne_overrun fun o hcopy => ?_
  have hempty : o.size = 0 := by
    unfold Bitsums.copyLeftOver at hcopy
    split at hcopy
    · exact absurd hcopy (takeFrom_empty h)
    · split at hcopy
      · exact absurd hcopy (takeFrom_empty h)
      · cases hcopy
        exact h
  refine bind_ne_error (squish_empty_ne_overrun hempty fuel) fun o₁ hsquish => ?_
  exact absurd hsquish (squish_empty hempty fuel o₁)

/-- What is behind the loop does not overrun: `squish` stays in the entries, or they are in wide memory. -/
theorem Counting.finish_ne_overrun {cap : Nat} {s : MergeState} {as bs done : List (Streak Nat)}
    (h : Counting cap xs ys s as bs done) (hin : Inputs a b xs ys cap) (hord : Ordered (done ++ (as ++ bs)))
    (hone : as = [] ∨ bs = []) (hkept : kept done = done) (fuel : Nat) :
    Bitsums.finish a b fuel s ≠ .error .overrun := by
  by_cases hdone : done = []
  · subst hdone
    exact finish_empty_ne_overrun h.oi fuel
  have hne : kept done ≠ [] := by rwa [hkept]
  obtain ⟨o, hcopy, hholds⟩ := h.copyLeftOver hin hord hone hne
  unfold Bitsums.finish
  rw [hcopy, ok_bind]
  refine bind_ne_error ?_ fun o₁ _ => bind_ne_error (validate_ne_overrun fuel) fun _ _ => fun h => nomatch h
  cases hrow : kept done ++ (as ++ bs) with
  | nil => exact absurd (List.append_eq_nil_iff.mp hrow).1 hne
  | cons r l =>
      rw [hrow] at hholds
      by_cases hsmall : (flat (r :: l)).length < 2 ^ 32
      · exact hholds.squish_ne_overrun hsmall fuel
      · exact squish_ne_overrun (Nat.le_trans (Nat.le_of_not_lt hsmall) hholds.length_le) fuel

/-- **`merge` writes in its memory only**, exactly when there is room. -/
theorem merge_overrun_exact (ha : a.Holds xs) (hxs : Alternating xs) (hb : b.Holds ys) (hys : Alternating ys) (ho : o.size = 0) :
    (∀ fuel, merge fuel a b o ≠ .error .overrun) ↔ Roomy o xs ys := by
  obtain ⟨s, hbegin, hai, hbi, hmerge⟩ := merge_begins ha hxs hb hys ho
  have hin := inputs ha hxs hb hys o
  have hord := ordered_swept none (unflat xs) (unflat ys) (hxs.good hys)
  have hone := (sweep_length none (unflat xs) (unflat ys)).2.2.2
  obtain ⟨hends, hoverruns, -⟩ := outcome hin none (unflat xs) (unflat ys) s [] hbegin
  rw [List.nil_append] at hends hoverruns
  constructor
  · intro hnever
    by_contra hnot
    rw [roomy_iff hxs hys, ← length_flat] at hnot
    obtain ⟨fuel, hfuel⟩ := (hoverruns hnot).bind_error (finish a b)
    refine hnever fuel ?_
    rw [hmerge]
    exact hfuel fuel (Nat.le_refl fuel)
  · intro hroomy fuel
    rw [hmerge]
    by_cases hwide : 2 ^ 32 ≤ mergeCap o xs ys
    · have hwide : Wide s := by
        refine ⟨by rw [hbegin.written.cap_eq]; exact hwide, ?_⟩
        rw [hbegin.oi]
        exact Nat.mod_lt _ (Nat.two_pow_pos 32)
      refine bind_ne_error (hwide.mergeLoop fuel) fun t hloop => ?_
      exact (loop_inv Wide (fun _ _ ht _ hstep => ht.mergeStep hstep) hwide hloop).1.finish fuel
    · have hlen : 2 * (unflat xs).length = xs.length := by rw [← length_flat, hxs.runs.1]
      have hlen' : 2 * (unflat ys).length = ys.length := by rw [← length_flat, hys.runs.1]
      have hleft := hin.left_le
      have hright := hin.right_le
      have hcount : Counts s none (unflat xs) (unflat ys) := by
        rw [counts_iff, hai, hbi]
        simp
        omega
      obtain ⟨t, hsettles, hcounting⟩ := hends hcount (by
      rw [length_flat]
      exact (roomy_iff hxs hys o).mp hroomy)
      have hkept := kept_eq (show 2 * (sweep none (unflat xs) (unflat ys)).1.length < 2 ^ 32 by
        rcases (roomy_iff hxs hys o).mp hroomy with hroomy | hroomy
        · exact absurd hroomy hwide
        · omega)
      rcases loop_eq_or hsettles fuel with hloop | hloop
      · rw [show mergeLoop a b fuel s = _ from hloop, ok_bind]
        exact hcounting.finish_ne_overrun hin hord hone hkept fuel
      · rw [show mergeLoop a b fuel s = _ from hloop]
        exact fun h => nomatch h

/-- **`merge` is union and `get` is membership**, exactly under their conditions. -/
theorem merge_get_exact (ha : a.Holds xs) (hxs : Valid xs) (hb : b.Holds ys) (hys : Valid ys) (ho : o.size = 0) :
    (Unites a b o xs ys ↔ Mergeable o xs ys) ∧ ∀ x, Answers a xs x ↔ Searchable xs x :=
  ⟨unites_iff ha hxs hb hys ho, fun _ => get_exact ha hxs⟩

end Merge

/-! ## Two inputs

The smallest inputs at which the memory is too small: two sets of two runs each that lie one between the other. And
two sets that fit. -/

/-- A set whose memory is full. -/
def ofEntries (xs : List Nat) : Bitsums := ⟨xs.map some, xs.length⟩

/-- The entries are there. -/
theorem holds_ofEntries (xs : List Nat) : (ofEntries xs).Holds xs where
  size := rfl
  entries := by
    intro i v hi
    show Cells.read (xs.map some) i = some v
    rw [Cells.read_eq_some, List.getElem?_map, hi]
    rfl

/-- Runs that lie one between the other. -/
def evens : List Nat := [0, 1, 4, 5]

/-- And those between them. -/
def odds : List Nat := [2, 3, 6, 7]

theorem valid_evens : Valid evens := ⟨⟨by decide, by decide⟩, by decide⟩

theorem valid_odds : Valid odds := ⟨⟨by decide, by decide⟩, by decide⟩

/-- There are three of them to be written when the first input is used up, and memory for two. -/
theorem not_roomy_interleaved : ¬Roomy ⟨[], 0⟩ evens odds := by
  have hsweep : (sweep none (unflat evens) (unflat odds)).1.length = 3 := by
    simp [unflat, evens, odds, sweep_cons]
  rw [roomy_iff valid_evens.toAlternating valid_odds.toAlternating, hsweep]
  unfold HasRoom
  decide

/-- The first input's second run of ones would be the third of the output, and is not written any more: the loop
    stops at the write before it. -/
theorem interleaved_overruns :
    ¬∀ fuel, merge fuel (ofEntries evens) (ofEntries odds) ⟨[], 0⟩ ≠ .error .overrun :=
  fun h => h 10 (by decide)

/-- So there is no union. -/
theorem interleaved_not_united : ¬Unites (ofEntries evens) (ofEntries odds) ⟨[], 0⟩ evens odds := by
  intro h
  have hmerge := (unites_iff (holds_ofEntries _) valid_evens (holds_ofEntries _) valid_odds rfl).mp h
  exact not_roomy_interleaved hmerge.roomy

/-- Two runs that overlap, and one behind them. -/
theorem roomy_overlapping : Roomy ⟨[], 0⟩ [0, 2, 6, 8] [1, 3] := by
  have hsweep : sweep none (unflat [0, 2, 6, 8]) (unflat [1, 3]) = ([⟨0, 3⟩], [⟨6, 8⟩], []) := by
    show sweep none (⟨0, 2⟩ :: [⟨6, 8⟩]) (⟨1, 3⟩ :: []) = _
    rw [sweep_cons, if_neg (by decide), if_neg (by decide), sweep_flush rfl rfl, sweep_nil_right]
    rfl
  rw [roomy_iff ⟨by decide, by decide⟩ ⟨by decide, by decide⟩, hsweep]
  exact Or.inr (by decide)

/-- Here there is room, and every number can be searched for. -/
theorem merge_get_exact_overlapping : Unites (ofEntries [0, 2, 6, 8]) (ofEntries [1, 3]) ⟨[], 0⟩ [0, 2, 6, 8] [1, 3] ∧
    ∀ x, Answers (ofEntries [0, 2, 6, 8]) [0, 2, 6, 8] x := by
  have hvalid : Valid [0, 2, 6, 8] := ⟨⟨by decide, by decide⟩, by decide⟩
  have hvalid' : Valid [1, 3] := ⟨⟨by decide, by decide⟩, by decide⟩
  obtain ⟨hmerge, hget⟩ := merge_get_exact (o := ⟨[], 0⟩) (holds_ofEntries [0, 2, 6, 8]) hvalid (holds_ofEntries [1, 3])
    hvalid' rfl
  refine ⟨hmerge.mpr (mergeable_of_small hvalid.toAlternating hvalid'.toAlternating roomy_overlapping (by decide)), ?_⟩
  exact fun x => (hget x).mpr (Or.inl (by decide))

/-- And the memory is not overrun. -/
theorem merge_overrun_exact_overlapping : Roomy ⟨[], 0⟩ [0, 2, 6, 8] [1, 3] ∧
    ∀ fuel, merge fuel (ofEntries [0, 2, 6, 8]) (ofEntries [1, 3]) ⟨[], 0⟩ ≠ .error .overrun := by
  have halternating : Alternating [0, 2, 6, 8] := ⟨by decide, by decide⟩
  have halternating' : Alternating [1, 3] := ⟨by decide, by decide⟩
  refine ⟨roomy_overlapping, ?_⟩
  exact (merge_overrun_exact (holds_ofEntries [0, 2, 6, 8]) halternating (holds_ofEntries [1, 3]) halternating'
    rfl).mpr roomy_overlapping

end Bitsums
end FOrder.Futurerd
