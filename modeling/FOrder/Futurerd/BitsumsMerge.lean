import FOrder.Futurerd.Bitsums
import FOrder.Lib.Streaks

/-!
# `Futurerd.BitsumsMerge` — the loop of `merge` sweeps

The loop goes over the runs of ones of its two inputs as `Streak.sweep` does. It writes two entries for everything
that the sweep puts together, into memory for the longer input; and it counts them, and the entries it has read, in
32 bits.

This module has what one turn needs: the turn itself by cases (`zeroStep_…`, `oneStep_…`), what has been written
(`Written`), where an index is in its input (`AtStart`, `AtStop`), and what the test `spans` of the code says there
(`Fits`).

All of it takes 32-bit indices as they are. The output is written at `out.length % 2 ^ 32`, so `Written` promises
only the last `2 ^ 32` entries; and an index of an input may wrap. After that it goes round in entries that were
read before, and `Stuck` is the reason why it does so for ever: the loop goes on in the input whose next entry fits,
and here that is always the one that has wrapped.
-/

namespace FOrder.Futurerd
namespace Bitsums
open Streak

/-! ## One turn -/

section Turn

variable {a b : Bitsums} {s : MergeState}

/-- The code's first branch: a run of `a` is copied as it is. -/
theorem zeroStep_first (heven : s.ai % 2 = 0 ∧ s.bi % 2 = 0 ∧ s.oi % 2 = 0) (h : spans a b s.ai s.bi = .ok true) :
    zeroStep a b s = takeTwo a s.o s.ai s.oi >>= fun o =>
      .ok { s with ai := after s.ai 2, oi := after s.oi 2, o := o } := by
  unfold zeroStep check
  rw [if_pos heven, h]
  rfl

/-- Its second branch: a run of `b` is copied as it is. -/
theorem zeroStep_second (heven : s.ai % 2 = 0 ∧ s.bi % 2 = 0 ∧ s.oi % 2 = 0) (h : spans a b s.ai s.bi = .ok false)
    (h' : spans b a s.bi s.ai = .ok true) :
    zeroStep a b s = takeTwo b s.o s.bi s.oi >>= fun o =>
      .ok { s with bi := after s.bi 2, oi := after s.oi 2, o := o } := by
  unfold zeroStep check
  rw [if_pos heven, h, h']
  rfl

/-- Its third branch: a start is written, and from there on ones are counted. -/
theorem zeroStep_meet (heven : s.ai % 2 = 0 ∧ s.bi % 2 = 0 ∧ s.oi % 2 = 0) (h : spans a b s.ai s.bi = .ok false)
    (h' : spans b a s.bi s.ai = .ok false) :
    zeroStep a b s = least a b s.ai s.bi >>= fun v => s.o.put s.oi v >>= fun o =>
      .ok ⟨after s.ai 1, after s.bi 1, after s.oi 1, false, o⟩ := by
  unfold zeroStep check
  rw [if_pos heven, h, h']
  rfl

/-- The next run of `a` begins in the group, and its entries are passed over. -/
theorem oneStep_left (hodd : s.ai % 2 = 1 ∧ s.bi % 2 = 1 ∧ s.oi % 2 = 1) (h : spans a b s.ai s.bi = .ok true) :
    oneStep a b s = .ok { s with ai := after s.ai 2 } := by
  unfold oneStep check
  rw [if_pos hodd, h]
  rfl

/-- The next run of `b` begins in the group, and its entries are passed over. -/
theorem oneStep_right (hodd : s.ai % 2 = 1 ∧ s.bi % 2 = 1 ∧ s.oi % 2 = 1) (h : spans a b s.ai s.bi = .ok false)
    (h' : spans b a s.bi s.ai = .ok true) : oneStep a b s = .ok { s with bi := after s.bi 2 } := by
  unfold oneStep check
  rw [if_pos hodd, h, h']
  rfl

/-- The group ends: its stop is the later one of the two. -/
theorem oneStep_flush (hodd : s.ai % 2 = 1 ∧ s.bi % 2 = 1 ∧ s.oi % 2 = 1) (h : spans a b s.ai s.bi = .ok false)
    (h' : spans b a s.bi s.ai = .ok false) {p q : Nat} (hp : a.entry s.ai = .ok p) (hq : b.entry s.bi = .ok q) :
    oneStep a b s = s.o.put s.oi (max p q) >>= fun o =>
      .ok ⟨after s.ai 1, after s.bi 1, after s.oi 1, true, o⟩ := by
  unfold oneStep check
  rw [if_pos hodd, h, h', hp, hq]
  rfl

/-- A turn that finds the first input's next entry in time goes on in that input. -/
theorem mergeStep_spans {s' : MergeState} (h : spans a b s.ai s.bi = .ok true) (hstep : mergeStep a b s = .ok s') :
    s'.ai = after s.ai 2 ∧ s'.bi = s.bi := by
  unfold mergeStep at hstep
  split at hstep
  · by_cases heven : s.ai % 2 = 0 ∧ s.bi % 2 = 0 ∧ s.oi % 2 = 0
    · rw [zeroStep_first heven h] at hstep
      obtain ⟨o, -, ho⟩ := bind_eq_ok.mp hstep
      cases ho
      exact ⟨rfl, rfl⟩
    · unfold zeroStep check at hstep
      rw [if_neg heven] at hstep
      cases hstep
  · by_cases hodd : s.ai % 2 = 1 ∧ s.bi % 2 = 1 ∧ s.oi % 2 = 1
    · rw [oneStep_left hodd h] at hstep
      cases hstep
      exact ⟨rfl, rfl⟩
    · unfold oneStep check at hstep
      rw [if_neg hodd] at hstep
      cases hstep

/-- And else, one that finds the second input's next entry in time goes on there. -/
theorem mergeStep_spans_right {s' : MergeState} (h : spans a b s.ai s.bi = .ok false)
    (h' : spans b a s.bi s.ai = .ok true) (hstep : mergeStep a b s = .ok s') :
    s'.ai = s.ai ∧ s'.bi = after s.bi 2 := by
  unfold mergeStep at hstep
  split at hstep
  · by_cases heven : s.ai % 2 = 0 ∧ s.bi % 2 = 0 ∧ s.oi % 2 = 0
    · rw [zeroStep_second heven h h'] at hstep
      obtain ⟨o, -, ho⟩ := bind_eq_ok.mp hstep
      cases ho
      exact ⟨rfl, rfl⟩
    · unfold zeroStep check at hstep
      rw [if_neg heven] at hstep
      cases hstep
  · by_cases hodd : s.ai % 2 = 1 ∧ s.bi % 2 = 1 ∧ s.oi % 2 = 1
    · rw [oneStep_right hodd h h'] at hstep
      cases hstep
      exact ⟨rfl, rfl⟩
    · unfold oneStep check at hstep
      rw [if_neg hodd] at hstep
      cases hstep

end Turn

/-! ## The output -/

/-- There is memory for `n` entries, or for as many as 32 bits can number. -/
def HasRoom (cap n : Nat) : Prop := 2 ^ 32 ≤ cap ∨ n ≤ cap

/-- Where there is room for more there is room for less. -/
theorem HasRoom.mono {cap m n : Nat} (h : HasRoom cap n) (hmn : m ≤ n) : HasRoom cap m := by
  rcases h with h | h
  · exact Or.inl h
  · exact Or.inr (Nat.le_trans hmn h)

/-- What has been written so far, as much of it as has not been written over. -/
structure Written (cap : Nat) (o : Bitsums) (out : List Nat) : Prop where
  cap_eq : o.cap = cap
  entries : ∀ {k v : Nat}, out[k]? = some v → out.length ≤ k + 2 ^ 32 → o.data.read (k % 2 ^ 32) = some v

section Written

variable {cap v p q : Nat} {o a : Bitsums} {out : List Nat}

/-- A write at the 32-bit index keeps what was written in the last `2 ^ 32` places: it falls on the entry that is
    one more back. -/
theorem Written.put (h : Written cap o out) (hroom : HasRoom cap (out.length + 1)) (v : Nat) :
    ∃ o', o.put (out.length % 2 ^ 32) v = .ok o' ∧ Written cap o' (out ++ [v]) := by
  have hlt : out.length % 2 ^ 32 < o.data.length := by
    have hcap : o.data.length = cap := h.cap_eq
    have hmod : out.length % 2 ^ 32 < 2 ^ 32 := Nat.mod_lt _ (by decide)
    have hle : out.length % 2 ^ 32 ≤ out.length := Nat.mod_le _ _
    rcases hroom with hwide | hroom
    · omega
    · omega
  refine ⟨⟨o.data.set (out.length % 2 ^ 32) (some v), o.size⟩, ?_, ?_, ?_⟩
  · unfold Bitsums.put
    rw [Cells.write_of_lt hlt]
  · show (o.data.set _ _).length = cap
    rw [List.length_set]
    exact h.cap_eq
  · intro k w hk hnew
    rw [List.length_append, List.length_singleton] at hnew
    show Cells.read (o.data.set _ _) _ = some w
    rcases Nat.lt_trichotomy k out.length with hlt' | rfl | hgt
    · rw [List.getElem?_append_left hlt'] at hk
      -- an entry of the last `2 ^ 32 - 1` is not where the new one goes
      rw [Cells.read_set_ne (by omega)]
      exact h.entries hk (by omega)
    · rw [List.getElem?_append_right (Nat.le_refl _), Nat.sub_self] at hk
      obtain rfl := Option.some.inj hk
      exact Cells.read_set_self hlt
    · rw [List.getElem?_eq_none (by rw [List.length_append, List.length_singleton]; omega)] at hk
      cases hk

/-- Without room the next entry is behind the memory: nothing has wrapped, since memory for `2 ^ 32` entries is room
    enough. -/
theorem Written.put_overrun (h : Written cap o out) (hroom : HasRoom cap out.length)
    (hfull : ¬HasRoom cap (out.length + 1)) (v : Nat) : o.put (out.length % 2 ^ 32) v = .error .overrun := by
  unfold HasRoom at hfull
  have hle : out.length ≤ cap := by
    rcases hroom with hwide | hle
    · omega
    · exact hle
  have hcap : o.data.length = cap := h.cap_eq
  unfold Bitsums.put
  rw [Cells.write_of_length_le (by omega)]

/-- Two entries. -/
theorem Written.putTwo (h : Written cap o out) (hroom : HasRoom cap (out.length + 2)) {i : Nat}
    (hp : a.entry i = .ok p) (hq : a.entry (after i 1) = .ok q) :
    ∃ o', takeTwo a o i (out.length % 2 ^ 32) = .ok o' ∧ Written cap o' (out ++ [p, q]) := by
  obtain ⟨o₁, ho₁, h₁⟩ := h.put (hroom.mono (Nat.le_succ _)) p
  have hlen : (out ++ [p]).length = out.length + 1 := List.length_append
  obtain ⟨o₂, ho₂, h₂⟩ := h₁.put (by rw [hlen]; exact hroom) q
  have hnext : after (out.length % 2 ^ 32) 1 = (out ++ [p]).length % 2 ^ 32 := by
    rw [hlen]
    unfold after
    omega
  refine ⟨o₂, ?_, ?_⟩
  · unfold takeTwo
    rw [hp, hq, hnext]
    show o.put _ p >>= _ = _
    rw [ho₁]
    exact ho₂
  · rw [List.append_assoc] at h₂
    exact h₂

/-- When there is no room for both, the first write overruns, or the second does. -/
theorem Written.putTwo_overrun (h : Written cap o out) (hroom : HasRoom cap out.length)
    (hfull : ¬HasRoom cap (out.length + 2)) {i : Nat} (hp : a.entry i = .ok p) (hq : a.entry (after i 1) = .ok q) :
    takeTwo a o i (out.length % 2 ^ 32) = .error .overrun := by
  have hlen : (out ++ [p]).length = out.length + 1 := List.length_append
  have hnext : after (out.length % 2 ^ 32) 1 = (out ++ [p]).length % 2 ^ 32 := by
    rw [hlen]
    unfold after
    omega
  unfold takeTwo
  rw [hp, hq, hnext]
  show o.put _ p >>= _ = _
  by_cases hone : HasRoom cap (out.length + 1)
  · obtain ⟨o₁, ho₁, h₁⟩ := h.put hone p
    rw [ho₁]
    exact h₁.put_overrun (by rw [hlen]; exact hone) (by rw [hlen]; exact hfull) q
  · rw [h.put_overrun hroom hone]
    rfl

end Written

/-! ## The inputs -/

/-- The next entry of the one is there, and not behind the current entry of the other. -/
def Fits (xs ys : List Nat) (i j : Nat) : Prop :=
  ∃ p q, xs[after i 1]? = some p ∧ ys[j]? = some q ∧ p ≤ q

/-- Before a run of ones; behind it are those of `l`. -/
structure AtStart (xs : List Nat) (i : Nat) (l : List (Streak Nat)) : Prop where
  rest : xs.drop i = flat l
  even : i % 2 = 0
  small : i < 2 ^ 32

/-- Before the stop of one. -/
structure AtStop (xs : List Nat) (i p : Nat) (l : List (Streak Nat)) : Prop where
  rest : xs.drop i = p :: flat l
  odd : i % 2 = 1
  small : i < 2 ^ 32

section Inputs

variable {a b : Bitsums} {xs ys : List Nat} {i j p q : Nat} {r : Streak Nat} {l l' : List (Streak Nat)}

/-- The test of the code is true when the entry fits. -/
theorem spans_of_fits (ha : a.Holds xs) (hb : b.Holds ys) (h : Fits xs ys i j) : spans a b i j = .ok true := by
  obtain ⟨p, q, hp, hq, hle⟩ := h
  have hlt := (List.getElem?_eq_some_iff.mp hp).1
  unfold spans
  rw [if_pos (by rw [ha.size]; exact hlt), ha.entry hp, hb.entry hq]
  exact congrArg Except.ok (decide_eq_true hle)

/-- And false when it does not, or is not there. -/
theorem spans_of_not_fits (ha : a.Holds xs) (hb : b.Holds ys) (hj : j < ys.length) (h : ¬Fits xs ys i j) :
    spans a b i j = .ok false := by
  have hq := List.getElem?_eq_getElem hj
  generalize ys[j] = q at hq
  unfold spans
  split
  · rename_i hlt
    rw [ha.size] at hlt
    have hp := List.getElem?_eq_getElem hlt
    generalize xs[after i 1] = p at hp
    rw [ha.entry hp, hb.entry hq]
    exact congrArg Except.ok (decide_eq_false fun hle => h ⟨p, q, hp, hq, hle⟩)
  · rfl

/-- Indices are plain numbers as long as they do not wrap. -/
theorem after_one (h : i + 1 < 2 ^ 32) : after i 1 = i + 1 := Nat.mod_eq_of_lt h

theorem after_two (h : i + 2 < 2 ^ 32) : after i 2 = i + 2 := Nat.mod_eq_of_lt h

/-- What is known of the rest of an input is known of its entries. -/
theorem getElem?_of_drop (ps : List Nat) {qs : List Nat} (h : xs.drop i = ps ++ qs) (k : Nat) (hk : k < ps.length) :
    xs[i + k]? = ps[k]? := by
  rw [← List.getElem?_drop, h, List.getElem?_append_left hk]

/-- When no run is left the index is behind the input. -/
theorem AtStart.nil (h : AtStart xs i []) : xs.length ≤ i := List.drop_eq_nil_iff.mp h.rest

/-- The two entries that are read before a run of ones are its start and its stop. The second is not at a wrapped
    index: an even number below `2 ^ 32` is not the last one. -/
theorem AtStart.getElem? (h : AtStart xs i (r :: l)) : xs[i]? = some r.start ∧ xs[after i 1]? = some r.stop := by
  have hdrop : xs.drop i = [r.start, r.stop] ++ flat l := h.rest
  have heven := h.even
  have hsmall := h.small
  rw [after_one (by omega)]
  exact ⟨getElem?_of_drop _ hdrop 0 Nat.two_pos, getElem?_of_drop _ hdrop 1 Nat.one_lt_two⟩

theorem AtStart.length (h : AtStart xs i (r :: l)) : i + 2 ≤ xs.length := by
  have hlen := congrArg List.length h.rest
  rw [List.length_drop, flat_cons, List.length_cons, List.length_cons] at hlen
  omega

/-- Past a run of ones. -/
theorem AtStart.next (h : AtStart xs i (r :: l)) (hsmall : i + 2 < 2 ^ 32) : AtStart xs (i + 2) l where
  rest := by
    rw [← List.drop_drop, h.rest]
    rfl
  even := by
    have heven := h.even
    omega
  small := hsmall

/-- Past the start only. -/
theorem AtStart.stop (h : AtStart xs i (r :: l)) : AtStop xs (i + 1) r.stop l where
  rest := by
    rw [← List.drop_drop, h.rest]
    rfl
  odd := by
    have heven := h.even
    omega
  small := by
    have heven := h.even
    have hsmall := h.small
    omega

theorem AtStop.getElem? (h : AtStop xs i p l) : xs[i]? = some p :=
  getElem?_of_drop [p] h.rest 0 Nat.one_pos

theorem AtStop.length (h : AtStop xs i p l) : i < xs.length := (List.getElem?_eq_some_iff.mp h.getElem?).1

/-- Past a stop is before the next run. -/
theorem AtStop.start (h : AtStop xs i p l) (hsmall : i + 1 < 2 ^ 32) : AtStart xs (i + 1) l where
  rest := by
    rw [← List.drop_drop, h.rest]
    rfl
  even := by
    have hodd := h.odd
    omega
  small := hsmall

/-- Before a run of ones, it fits when its stop is not behind the other's entry. -/
theorem AtStart.fits (h : AtStart xs i (r :: l)) (hq : ys[j]? = some q) : Fits xs ys i j ↔ r.stop ≤ q := by
  constructor
  · rintro ⟨p, q', hp, hq', hle⟩
    obtain rfl := Option.some.inj (h.getElem?.2.symm.trans hp)
    obtain rfl := Option.some.inj (hq.symm.trans hq')
    exact hle
  · exact fun hle => ⟨r.stop, q, h.getElem?.2, hq, hle⟩

/-- Before its stop, the next run fits when it is reached. -/
theorem AtStop.fits_of_reach (h : AtStop xs i p l) (hsmall : i + 1 < 2 ^ 32) (hq : ys[j]? = some q)
    (hr : l = r :: l') (hle : r.start ≤ q) : Fits xs ys i j := by
  subst hr
  have hstart := (h.start hsmall).getElem?.1
  rw [← after_one hsmall] at hstart
  exact ⟨r.start, q, hstart, hq, hle⟩

/-- When no run is reached, the next start is behind the other's entry, or there is none. -/
theorem AtStop.not_fits (h : AtStop xs i p l) (hsmall : i + 1 < 2 ^ 32) (hq : ys[j]? = some q)
    (hr : reach q l = none) : ¬Fits xs ys i j := by
  rintro ⟨p', q', hp, hq', hle⟩
  obtain rfl := Option.some.inj (hq.symm.trans hq')
  have hstart := h.start hsmall
  rw [after_one hsmall] at hp
  cases l with
  | nil =>
      rw [List.getElem?_eq_none hstart.nil] at hp
      cases hp
  | cons r l =>
      obtain rfl := Option.some.inj (hstart.getElem?.1.symm.trans hp)
      exact Nat.not_lt_of_le hle (reach_eq_none hr r rfl)

/-- An entry that fits does so from every place before it. -/
theorem fits_of_le (hup : xs.Pairwise (· < ·)) (hp : xs[j]? = some p) {k : Nat} (hk : after i 1 ≤ j)
    (hq : ys[k]? = some q) (hle : p ≤ q) : Fits xs ys i k := by
  have hlt := Nat.lt_of_le_of_lt hk (List.getElem?_eq_some_iff.mp hp).1
  have hv := List.getElem?_eq_getElem hlt
  exact ⟨_, q, hv, hq, Nat.le_trans (getElem?_le hup hv hp hk) hle⟩

end Inputs

/-! ## Indices that have wrapped -/

/-- One of the indices goes around for ever: all of what it can still come to is before the other one's entry. -/
inductive Stuck (xs ys : List Nat) (s : MergeState) : Prop where
  | left (hlong : 2 ^ 32 ≤ xs.length) (hsmall : s.ai < 2 ^ 32) (hright : s.bi < ys.length)
      (h : ∀ k, k < 2 ^ 32 → k % 2 = s.ai % 2 → Fits xs ys k s.bi)
  | right (hlong : 2 ^ 32 ≤ ys.length) (hsmall : s.bi < 2 ^ 32) (hleft : s.ai < xs.length)
      (h : ∀ k, k < 2 ^ 32 → k % 2 = s.bi % 2 → ¬Fits xs ys s.ai k ∧ Fits ys xs k s.ai)

section Stuck

variable {a b : Bitsums} {xs ys : List Nat} {s s' : MergeState}

/-- A stuck loop has entries of both inputs before it. -/
theorem Stuck.bothLeft (ha : a.Holds xs) (hb : b.Holds ys) (h : Stuck xs ys s) : bothLeft a b s = true := by
  unfold Bitsums.bothLeft
  rw [ha.size, hb.size, Bool.and_eq_true, decide_eq_true_iff, decide_eq_true_iff]
  cases h with
  | left hlong hsmall hright h => exact ⟨by omega, hright⟩
  | right hlong hsmall hleft h => exact ⟨hleft, by omega⟩

/-- **A stuck loop stays stuck.** The input that has wrapped goes on by two entries, and the other stays where it
    is. -/
theorem Stuck.step (ha : a.Holds xs) (hb : b.Holds ys) (h : Stuck xs ys s) (hstep : mergeStep a b s = .ok s') :
    Stuck xs ys s' := by
  have hparity : ∀ i, after i 2 % 2 = i % 2 := by
    intro i
    unfold after
    omega
  have hlt : ∀ i, after i 2 < 2 ^ 32 := fun i => Nat.mod_lt _ (by decide)
  cases h with
  | left hlong hsmall hright h =>
      obtain ⟨hai, hbi⟩ := mergeStep_spans (spans_of_fits ha hb (h s.ai hsmall rfl)) hstep
      refine .left hlong (by rw [hai]; exact hlt _) (by rw [hbi]; exact hright) ?_
      rw [hai, hbi, hparity]
      exact h
  | right hlong hsmall hleft h =>
      obtain ⟨hnot, hfits⟩ := h s.bi hsmall rfl
      have hno := spans_of_not_fits ha hb (show s.bi < ys.length by omega) hnot
      obtain ⟨hai, hbi⟩ := mergeStep_spans_right hno (spans_of_fits hb ha hfits) hstep
      refine .right hlong (by rw [hbi]; exact hlt _) (by rw [hai]; exact hleft) ?_
      rw [hai, hbi, hparity]
      exact h

end Stuck

end Bitsums
end FOrder.Futurerd
