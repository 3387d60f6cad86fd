import FOrder.Futurerd.Bitsums

/-!
# `Futurerd.BitsumsGet` — when `get` is membership

`find` is a binary search between `l` and `r`. It keeps the number at or behind the entry at `l` and before the one
at `r`, and stops when the two are neighbours. Whether the index it has found is even or odd says whether the number
is in the set (`denotes_between`).

The search is given the size as a 32-bit number. With `2 ^ 32` entries or more it is among the first `size % 2 ^ 32`
of them only. Where the number is behind all of these, the search goes between `r - 1` and `r` and never ends: `m`
is `r - 1` from some turn on, and the entry behind it is not behind the number (`search_running`). Numbers behind
all entries are answered before the search begins, and numbers before all entries too, so they are not concerned.
-/

namespace FOrder.Futurerd
namespace Bitsums

variable {b : Bitsums} {xs : List Nat} {x : Nat}

/-- Two neighbouring entries have the number between them. -/
structure Between (xs : List Nat) (x i : Nat) : Prop where
  start : ∃ p, xs[i]? = some p ∧ p ≤ x
  stop : ∃ q, xs[i + 1]? = some q ∧ x < q

/-- One turn, once the entry in the middle has been read. -/
theorem search_turn {l r m v : Nat} (hlr : l ≤ r) (hm : m = l + (r - l) / 2) (hv : b.entry m = .ok v) (fuel : Nat) :
    b.search x (fuel + 1) l r = if x < v then b.search x fuel l m else (do
      let w ← b.entry (after m 1)
      if x < w then return after m 1
      else b.search x fuel m r) := by
  subst hm
  rw [search, if_pos hlr]
  show b.entry (l + (r - l) / 2) >>= _ = _
  rw [hv]
  rfl

/-- **The search finds** the entries around the number, when it is between those at `l` and `r`. -/
theorem search_settles (h : b.Holds xs) (hinc : xs.Pairwise (· < ·)) {l r : Nat} (hlr : l < r)
    (hr : r < 2 ^ 32) (hle : r ≤ xs.length) (hlow : ∃ p, xs[l]? = some p ∧ p ≤ x)
    (hhigh : ∀ q, xs[r]? = some q → x < q) (hlast : ∃ q, xs.getLast? = some q ∧ x < q) :
    ∃ i, i + 1 < 2 ^ 32 ∧ Between xs x i ∧ Settles (fun fuel => b.search x fuel l r) (.ok (i + 1)) := by
  induction hd : r - l using Nat.strongRecOn generalizing l r with
  | ind d ih =>
      obtain ⟨m, hm⟩ : ∃ m, m = l + (r - l) / 2 := ⟨_, rfl⟩
      have hlm : l ≤ m := by omega
      have hmr : m < r := by omega
      have hv := List.getElem?_eq_getElem (Nat.lt_of_lt_of_le hmr hle)
      generalize xs[m] = v at hv
      have hturn := search_turn (x := x) (Nat.le_of_lt hlr) hm (h.entry hv)
      by_cases hxv : x < v
      · -- the entry in the middle is behind the number
        have hne : l ≠ m := by
          rintro rfl
          obtain ⟨p, hp, hpx⟩ := hlow
          obtain rfl := Option.some.inj (hp.symm.trans hv)
          exact Nat.not_lt_of_le hpx hxv
        have hhigh' : ∀ q, xs[m]? = some q → x < q := by
          intro q hq
          obtain rfl := Option.some.inj (hv.symm.trans hq)
          exact hxv
        obtain ⟨i, hi, hbetween, n, hn⟩ := ih (m - l) (by omega) (show l < m by omega) (by omega) (by omega) hlow
          hhigh' rfl
        refine ⟨i, hi, hbetween, n + 1, ?_⟩
        intro fuel hfuel
        obtain ⟨k, rfl⟩ := Nat.exists_eq_add_of_le' (Nat.le_trans (Nat.le_add_left 1 n) hfuel)
        show b.search x (k + 1) l r = _
        rw [hturn, if_pos hxv]
        exact hn k (Nat.le_of_succ_le_succ hfuel)
      · have hvx := Nat.le_of_not_lt hxv
        have hafter : after m 1 = m + 1 := Nat.mod_eq_of_lt (by omega)
        -- the last entry is behind the number, so there is one more
        have hin : m + 1 < xs.length := by
          obtain ⟨q, hq, hxq⟩ := hlast
          rw [List.getLast?_eq_getElem?] at hq
          refine Nat.lt_of_not_le ?_
          intro hend
          exact Nat.not_lt_of_le (Nat.le_trans (getElem?_le hinc hq hv (by omega)) hvx) hxq
        have hw := List.getElem?_eq_getElem hin
        generalize xs[m + 1] = w at hw
        by_cases hxw : x < w
        · refine ⟨m, by omega, ⟨⟨v, hv, hvx⟩, w, hw, hxw⟩, 1, ?_⟩
          intro fuel hfuel
          obtain ⟨k, rfl⟩ := Nat.exists_eq_add_of_le' hfuel
          show b.search x (k + 1) l r = _
          rw [hturn, if_neg hxv, hafter, h.entry hw]
          exact if_pos hxw
        · have hne : l ≠ m := by
            rintro rfl
            obtain rfl : r = l + 1 := by omega
            exact hxw (hhigh w hw)
          obtain ⟨i, hi, hbetween, n, hn⟩ := ih (r - m) (by omega) hmr hr hle ⟨v, hv, hvx⟩ hhigh rfl
          refine ⟨i, hi, hbetween, n + 1, ?_⟩
          intro fuel hfuel
          obtain ⟨k, rfl⟩ := Nat.exists_eq_add_of_le' (Nat.le_trans (Nat.le_add_left 1 n) hfuel)
          show b.search x (k + 1) l r = _
          rw [hturn, if_neg hxv, hafter, h.entry hw]
          show (if x < w then _ else b.search x k m r) = _
          rw [if_neg hxw]
          exact hn k (Nat.le_of_succ_le_succ hfuel)

/-- **The search never ends** when the entry at `r` is not behind the number. -/
theorem search_running (h : b.Holds xs) (hinc : xs.Pairwise (· < ·)) {l r q : Nat} (hlr : l ≤ r) (hl : l < max r 1)
    (hr : r < 2 ^ 32) (hq : xs[max r 1]? = some q) (hqx : q ≤ x) (fuel : Nat) :
    b.search x fuel l r = .error .running := by
  induction fuel generalizing l with
  | zero => rfl
  | succ fuel ih =>
      obtain ⟨m, hm⟩ : ∃ m, m = l + (r - l) / 2 := ⟨_, rfl⟩
      have hmr : m ≤ r := by omega
      have hm' : m < max r 1 := by omega
      have hlen : max r 1 < xs.length := (List.getElem?_eq_some_iff.mp hq).1
      have hv := List.getElem?_eq_getElem (Nat.lt_trans hm' hlen)
      generalize xs[m] = v at hv
      have hw := List.getElem?_eq_getElem (Nat.lt_of_le_of_lt (show m + 1 ≤ max r 1 from hm') hlen)
      generalize xs[m + 1] = w at hw
      have hafter : after m 1 = m + 1 := Nat.mod_eq_of_lt (by omega)
      have hvx : ¬x < v := Nat.not_lt_of_le (Nat.le_trans (getElem?_le hinc hv hq (Nat.le_of_lt hm')) hqx)
      have hwx : ¬x < w := Nat.not_lt_of_le (Nat.le_trans (getElem?_le hinc hw hq hm') hqx)
      rw [search_turn hlr hm (h.entry hv), if_neg hvx, hafter, h.entry hw]
      show (if x < w then _ else b.search x fuel m r) = _
      rw [if_neg hwx]
      exact ih hmr hm'

/-- `get` ends, with some fuel, and its answer is membership. -/
def Answers (b : Bitsums) (xs : List Nat) (x : Nat) : Prop :=
  ∃ fuel answer, b.get fuel x = .ok answer ∧ (answer = true ↔ Denotes xs x)

/-- What `get` needs: the number is before or behind all entries, or the entry at the size that the search is given is
behind it, and so it is where the size is a 32-bit number. -/
def Searchable (xs : List Nat) (x : Nat) : Prop :=
  xs.length < 2 ^ 32 ∨ (∀ p ∈ xs, x < p) ∨ (∀ p ∈ xs, p ≤ x) ∨
    ∃ p, xs[max (xs.length % 2 ^ 32) 1]? = some p ∧ x < p

/-- **`get` is membership** exactly when the number can be searched for. -/
theorem get_exact (h : b.Holds xs) (hxs : Valid xs) : Answers b xs x ↔ Searchable xs x := by
  have hinc := hxs.increasing
  have hlen : 2 ≤ xs.length := by
    have hpos := List.length_pos_iff.mpr hxs.nonempty
    have heven := hxs.even
    omega
  obtain ⟨first, hfirst⟩ : ∃ p, xs[0]? = some p := ⟨_, List.getElem?_eq_getElem (show 0 < xs.length by omega)⟩
  obtain ⟨last, hlast⟩ : ∃ p, xs.getLast? = some p := ⟨_, List.getLast?_eq_some_getLast hxs.nonempty⟩
  have hlast' : xs[xs.length - 1]? = some last := by rw [← List.getLast?_eq_getElem?, hlast]
  have hget : ∀ fuel, b.get fuel x = if last ≤ x then .ok false else if x < first then .ok false else (do
      let index ← b.search x fuel 0 (xs.length % 2 ^ 32)
      return if index % 2 = 0 then false else true) := by
    intro fuel
    unfold get find
    rw [h.last hlast, h.entry hfirst, h.size]
    show (if last ≤ x then _ else _) = _
    by_cases hbehind : last ≤ x
    · rw [if_pos hbehind, if_pos hbehind]
      rfl
    · rw [if_neg hbehind, if_neg hbehind]
      show (if x < first then _ else _) >>= _ = _
      by_cases hbefore : x < first
      · rw [if_pos hbefore, if_pos hbefore]
        rfl
      · rw [if_neg hbefore, if_neg hbefore]
  by_cases hbehind : last ≤ x
  · -- behind all entries
    refine iff_of_true ⟨0, false, by rw [hget, if_pos hbehind], ?_⟩ (Or.inr (Or.inr (Or.inl ?_)))
    · refine iff_of_false (by decide) ?_
      rintro ⟨k, p, q, -, hq, -, hxq⟩
      have hk := (List.getElem?_eq_some_iff.mp hq).1
      exact Nat.not_lt_of_le (Nat.le_trans (getElem?_le hinc hq hlast' (by omega)) hbehind) hxq
    · intro p hp
      obtain ⟨k, hk⟩ := List.mem_iff_getElem?.mp hp
      have hlt := (List.getElem?_eq_some_iff.mp hk).1
      exact Nat.le_trans (getElem?_le hinc hk hlast' (by omega)) hbehind
  by_cases hbefore : x < first
  · -- before all entries
    refine iff_of_true ⟨0, false, by rw [hget, if_neg hbehind, if_pos hbefore], ?_⟩ (Or.inr (Or.inl ?_))
    · refine iff_of_false (by decide) ?_
      rintro ⟨k, p, q, hp, -, hpx, -⟩
      exact Nat.not_lt_of_le hpx (Nat.lt_of_lt_of_le hbefore (getElem?_le hinc hfirst hp (Nat.zero_le _)))
    · intro p hp
      obtain ⟨k, hk⟩ := List.mem_iff_getElem?.mp hp
      exact Nat.lt_of_lt_of_le hbefore (getElem?_le hinc hfirst hk (Nat.zero_le _))
  have hsearch : ∀ fuel, b.get fuel x = (do
      let index ← b.search x fuel 0 (xs.length % 2 ^ 32)
      return if index % 2 = 0 then false else true) := by
    intro fuel
    rw [hget, if_neg hbehind, if_neg hbefore]
  have hfx := Nat.le_of_not_lt hbefore
  have hxl := Nat.lt_of_not_le hbehind
  have hmod : xs.length % 2 ^ 32 < 2 ^ 32 := Nat.mod_lt _ (by decide)
  -- what a search that ends makes of `get`
  have hanswers : ∀ i, Between xs x i → Settles (fun fuel => b.search x fuel 0 (xs.length % 2 ^ 32)) (.ok (i + 1)) →
      Answers b xs x := by
    rintro i ⟨⟨p, hp, hpx⟩, q, hq, hxq⟩ ⟨n, hn⟩
    refine ⟨n, if (i + 1) % 2 = 0 then false else true, ?_, ?_⟩
    · rw [hsearch, show b.search x n 0 (xs.length % 2 ^ 32) = _ from hn n (Nat.le_refl n)]
      rfl
    · rw [denotes_between hinc hp hq hpx hxq]
      split
      · exact iff_of_false (by decide) (by omega)
      · exact iff_of_true rfl (by omega)
  constructor
  · rintro ⟨fuel, answer, hanswer, -⟩
    by_contra hnot
    have hwide : ¬xs.length < 2 ^ 32 := fun hsmall => hnot (Or.inl hsmall)
    have hq := List.getElem?_eq_getElem (show max (xs.length % 2 ^ 32) 1 < xs.length by omega)
    generalize xs[max (xs.length % 2 ^ 32) 1] = q at hq
    have hqx : q ≤ x := Nat.le_of_not_lt fun hlt => hnot (Or.inr (Or.inr (Or.inr ⟨q, hq, hlt⟩)))
    rw [hsearch, search_running h hinc (Nat.zero_le _) (by omega) hmod hq hqx] at hanswer
    cases hanswer
  · intro hsearchable
    have hstop : xs.length < 2 ^ 32 ∨ ∃ p, xs[max (xs.length % 2 ^ 32) 1]? = some p ∧ x < p := by
      rcases hsearchable with hsmall | hall | hall | hp
      · exact Or.inl hsmall
      · exact absurd (hall first (List.mem_of_getElem? hfirst)) hbefore
      · exact absurd (hall last (List.mem_of_getElem? hlast')) hbehind
      · exact Or.inr hp
    by_cases hzero : xs.length % 2 ^ 32 = 0
    · -- the size is given as nothing: only the first two entries are looked at
      rcases hstop with hsmall | ⟨p, hp, hxp⟩
      · rw [Nat.mod_eq_of_lt hsmall] at hzero
        omega
      · rw [hzero, show max 0 1 = 1 from rfl] at hp
        refine hanswers 0 ⟨⟨first, hfirst, hfx⟩, p, hp, hxp⟩ ⟨1, ?_⟩
        intro fuel hfuel
        obtain ⟨k, rfl⟩ := Nat.exists_eq_add_of_le' hfuel
        show b.search x (k + 1) 0 _ = _
        rw [hzero, search_turn (Nat.le_refl 0) rfl (h.entry hfirst), if_neg hbefore, show after 0 1 = 1 from rfl,
          h.entry hp]
        exact if_pos hxp
    · have hhigh : ∀ q, xs[xs.length % 2 ^ 32]? = some q → x < q := by
        intro q hq
        rcases hstop with hsmall | ⟨p, hp, hxp⟩
        · rw [Nat.mod_eq_of_lt hsmall, List.getElem?_eq_none (Nat.le_refl _)] at hq
          cases hq
        · rw [Nat.max_eq_left (show 1 ≤ xs.length % 2 ^ 32 by omega)] at hp
          obtain rfl := Option.some.inj (hq.symm.trans hp)
          exact hxp
      obtain ⟨i, -, hbetween, hsettles⟩ := search_settles h hinc (show 0 < xs.length % 2 ^ 32 by omega) hmod
        (Nat.mod_le _ _) ⟨first, hfirst, hfx⟩ hhigh ⟨last, hlast, hxl⟩
      exact hanswers i hbetween hsettles

end Bitsums
end FOrder.Futurerd
