import FOrder.Futurerd.BitsumsSquish
import FOrder.Futurerd.BitsumsSweep

/-!
# `Futurerd.BitsumsWide` — what cannot overrun

A write of `merge` to its output is at a 32-bit index, so memory for `2 ^ 32` entries is never overrun, whatever the
inputs are. Neither is any memory by a read, a check, or a copy, which makes room for what it copies.

These are facts about the code alone: no list of entries stands behind them. `BitsumsSweep` needs them in the one
case in which it can say nothing else of the loop, when an index has wrapped and the loop goes round for ever; then
the memory is wide (`Stuck.wide`), and the question whether it is overrun is answered here.

Each part of the code has its lemma, `…_ne_overrun`, and where the memory goes on to a later part, a lemma on its
`cap` too. `Wide` is the invariant of the loop.
-/

namespace FOrder.Futurerd
namespace Bitsums

section Wide

variable {a b o : Bitsums} {s s' : MergeState} {i v : Nat}

/-- An assertion that fails is a stop of its own. -/
theorem check_ne_overrun {p : Prop} [Decidable p] : check p ≠ .error .overrun := by
  unfold check
  split
  · exact fun h => nomatch h
  · exact fun h => nomatch h

/-- A read that fails is `Stop.read`, inside the buffer or not. -/
theorem entry_ne_overrun : b.entry i ≠ .error .overrun := by
  unfold entry
  split
  · exact fun h => nomatch h
  · exact fun h => nomatch h

theorem last_ne_overrun : b.last ≠ .error .overrun := by
  unfold last
  split
  · exact fun h => nomatch h
  · exact entry_ne_overrun

/-- The only way for a write to overrun is an index that is not below `cap`. -/
theorem put_ne_overrun (h : i < b.cap) : b.put i v ≠ .error .overrun := by
  rw [put_of_lt h]
  exact fun h => nomatch h

/-- A copy overruns only its destination. What it cannot read there is `Stop.read`. -/
theorem memcpy_ne_overrun {dst src : Cells Nat} {j n : Nat} (h : i + n ≤ dst.length) :
    memcpy dst i src j n ≠ .error .overrun := by
  unfold memcpy
  rw [if_neg (Nat.not_lt_of_le h)]
  split
  · exact fun h => nomatch h
  · exact fun h => nomatch h

theorem memcpy_length {dst src data : Cells Nat} {j n : Nat} (h : memcpy dst i src j n = .ok data) :
    data.length = dst.length := by
  unfold memcpy at h
  split at h
  · cases h
  · split at h
    · rename_i hdata
      cases h
      exact (Cells.read_copy hdata).1
    · cases h

/-! ## The loop -/

/-- The tests of the loop only read. -/
theorem spans_ne_overrun {ai bi : Nat} : spans a b ai bi ≠ .error .overrun := by
  unfold spans
  split
  · refine bind_ne_error entry_ne_overrun fun p _ => bind_ne_error entry_ne_overrun fun q _ => ?_
    exact fun h => nomatch h
  · exact fun h => nomatch h

theorem least_ne_overrun {ai bi : Nat} : least a b ai bi ≠ .error .overrun := by
  unfold least
  refine bind_ne_error entry_ne_overrun fun p _ => bind_ne_error entry_ne_overrun fun q _ => ?_
  split
  · split
    · exact fun h => nomatch h
    · exact fun h => nomatch h
  · split
    · exact fun h => nomatch h
    · exact fun h => nomatch h

/-- An `index_t` is below `2 ^ 32` wherever it comes from. -/
theorem after_lt (i n : Nat) : after i n < 2 ^ 32 := Nat.mod_lt _ (Nat.two_pow_pos 32)

theorem before_lt (i : Nat) : before i < 2 ^ 32 := Nat.mod_lt _ (Nat.two_pow_pos 32)

/-- Two writes, the second at the next index, which may be `0` again. -/
theorem takeTwo_ne_overrun {ai oi : Nat} (hcap : 2 ^ 32 ≤ o.cap) (hoi : oi < 2 ^ 32) :
    takeTwo a o ai oi ≠ .error .overrun := by
  unfold takeTwo
  refine bind_ne_error entry_ne_overrun fun p _ => ?_
  refine bind_ne_error (put_ne_overrun (Nat.lt_of_lt_of_le hoi hcap)) fun o' ho' => ?_
  refine bind_ne_error entry_ne_overrun fun q _ => put_ne_overrun ?_
  rw [(put_eq_ok ho').2]
  exact Nat.lt_of_lt_of_le (after_lt oi 1) hcap

/-- Writing does not change how much memory there is. -/
theorem takeTwo_cap {o' : Bitsums} {ai oi : Nat} (h : takeTwo a o ai oi = .ok o') : o'.cap = o.cap := by
  unfold takeTwo at h
  obtain ⟨p, -, h⟩ := bind_eq_ok.mp h
  obtain ⟨o₁, ho₁, h⟩ := bind_eq_ok.mp h
  obtain ⟨q, -, h⟩ := bind_eq_ok.mp h
  exact (put_eq_ok h).2.trans (put_eq_ok ho₁).2

/-- The memory is wide, and the output's index is in it. -/
structure Wide (s : MergeState) : Prop where
  cap : 2 ^ 32 ≤ s.o.cap
  oi : s.oi < 2 ^ 32

/-- In the counting-zero case there is one write, or two. -/
theorem Wide.zeroStep (h : Wide s) : zeroStep a b s ≠ .error .overrun := by
  unfold Bitsums.zeroStep
  refine bind_ne_error check_ne_overrun fun _ _ => bind_ne_error spans_ne_overrun fun spansA _ => ?_
  split
  · refine bind_ne_error (takeTwo_ne_overrun h.cap h.oi) fun o _ => ?_
    exact fun h => nomatch h
  · refine bind_ne_error spans_ne_overrun fun spansB _ => ?_
    split
    · refine bind_ne_error (takeTwo_ne_overrun h.cap h.oi) fun o _ => ?_
      exact fun h => nomatch h
    · refine bind_ne_error least_ne_overrun fun v _ => ?_
      refine bind_ne_error (put_ne_overrun (Nat.lt_of_lt_of_le h.oi h.cap)) fun o _ => ?_
      exact fun h => nomatch h

/-- In the counting-one case there is at most one write. -/
theorem Wide.oneStep (h : Wide s) : oneStep a b s ≠ .error .overrun := by
  unfold Bitsums.oneStep
  refine bind_ne_error check_ne_overrun fun _ _ => bind_ne_error spans_ne_overrun fun spansA _ => ?_
  split
  · exact fun h => nomatch h
  · refine bind_ne_error spans_ne_overrun fun spansB _ => ?_
    split
    · exact fun h => nomatch h
    · refine bind_ne_error entry_ne_overrun fun p _ => bind_ne_error entry_ne_overrun fun q _ => ?_
      refine bind_ne_error (put_ne_overrun (Nat.lt_of_lt_of_le h.oi h.cap)) fun o _ => ?_
      exact fun h => nomatch h

/-- A turn keeps the memory, and its new index is a 32-bit number again. -/
theorem Wide.mergeStep (h : Wide s) (hstep : mergeStep a b s = .ok s') : Wide s' := by
  unfold Bitsums.mergeStep at hstep
  split at hstep
  · unfold Bitsums.zeroStep at hstep
    obtain ⟨-, -, hstep⟩ := bind_eq_ok.mp hstep
    obtain ⟨spansA, -, hstep⟩ := bind_eq_ok.mp hstep
    split at hstep
    · obtain ⟨o, ho, hstep⟩ := bind_eq_ok.mp hstep
      cases hstep
      exact ⟨h.cap.trans_eq (takeTwo_cap ho).symm, after_lt _ _⟩
    · obtain ⟨spansB, -, hstep⟩ := bind_eq_ok.mp hstep
      split at hstep
      · obtain ⟨o, ho, hstep⟩ := bind_eq_ok.mp hstep
        cases hstep
        exact ⟨h.cap.trans_eq (takeTwo_cap ho).symm, after_lt _ _⟩
      · obtain ⟨v, -, hstep⟩ := bind_eq_ok.mp hstep
        obtain ⟨o, ho, hstep⟩ := bind_eq_ok.mp hstep
        cases hstep
        exact ⟨h.cap.trans_eq (put_eq_ok ho).2.symm, after_lt _ _⟩
  · unfold Bitsums.oneStep at hstep
    obtain ⟨-, -, hstep⟩ := bind_eq_ok.mp hstep
    obtain ⟨spansA, -, hstep⟩ := bind_eq_ok.mp hstep
    split at hstep
    · cases hstep
      exact ⟨h.cap, h.oi⟩
    · obtain ⟨spansB, -, hstep⟩ := bind_eq_ok.mp hstep
      split at hstep
      · cases hstep
        exact ⟨h.cap, h.oi⟩
      · obtain ⟨p, -, hstep⟩ := bind_eq_ok.mp hstep
        obtain ⟨q, -, hstep⟩ := bind_eq_ok.mp hstep
        obtain ⟨o, ho, hstep⟩ := bind_eq_ok.mp hstep
        cases hstep
        exact ⟨h.cap.trans_eq (put_eq_ok ho).2.symm, after_lt _ _⟩

/-- **In wide memory the loop does not overrun.** -/
theorem Wide.mergeLoop (h : Wide s) (fuel : Nat) : mergeLoop a b fuel s ≠ .error .overrun := by
  intro hloop
  rcases loop_error Wide (fun _ _ ht hstep => ht.mergeStep hstep) h hloop with hrunning | ⟨t, ht, hstep⟩
  · cases hrunning
  · unfold Bitsums.mergeStep at hstep
    split at hstep
    · exact ht.zeroStep hstep
    · exact ht.oneStep hstep

/-! ## Behind the loop -/

/-- Growing copies `size` entries into memory for more than that. -/
theorem resize_ne_overrun {newCap : Nat} (h : b.size ≤ newCap) : b.resize newCap ≠ .error .overrun := by
  unfold resize
  split
  · exact fun h => nomatch h
  · have hfits : 0 + b.size ≤ (Cells.fresh newCap : Cells Nat).length := by
      rw [Cells.length_fresh, Nat.zero_add]
      exact h
    refine bind_ne_error (memcpy_ne_overrun hfits) fun newData _ => ?_
    exact fun h => nomatch h

/-- What growing leaves: the size is the same, and the memory is at least what was asked for. -/
theorem resize_eq_ok {b' : Bitsums} {newCap : Nat} (h : b.resize newCap = .ok b') :
    b'.size = b.size ∧ newCap ≤ b'.cap ∧ b.cap ≤ b'.cap := by
  unfold resize at h
  split at h
  · rename_i hle
    cases h
    exact ⟨rfl, hle, Nat.le_refl _⟩
  · rename_i hlt
    obtain ⟨newData, hcopy, h⟩ := bind_eq_ok.mp h
    cases h
    have hlen : newData.length = newCap := (memcpy_length hcopy).trans (Cells.length_fresh newCap)
    refine ⟨rfl, Nat.le_of_eq hlen.symm, ?_⟩
    show b.cap ≤ newData.length
    rw [hlen]
    exact Nat.le_of_not_le hlt

/-- `take_from` makes room. -/
theorem takeFrom_ne_overrun : b.takeFrom o i ≠ .error .overrun := by
  unfold takeFrom
  refine bind_ne_error check_ne_overrun fun _ _ => bind_ne_error check_ne_overrun fun _ _ => ?_
  refine bind_ne_error last_ne_overrun fun p _ => bind_ne_error entry_ne_overrun fun q _ => ?_
  refine bind_ne_error check_ne_overrun fun _ _ => ?_
  refine bind_ne_error (resize_ne_overrun (Nat.le_add_right _ _)) fun b' hb' => ?_
  obtain ⟨hsize, hcap, -⟩ := resize_eq_ok hb'
  have hfits : b'.size + (o.size - i) ≤ b'.data.length := by
    rw [hsize]
    exact hcap
  refine bind_ne_error (memcpy_ne_overrun hfits) fun data _ => ?_
  exact fun h => nomatch h

/-- Making room never gives memory back. -/
theorem takeFrom_cap {b' : Bitsums} (h : b.takeFrom o i = .ok b') : b.cap ≤ b'.cap := by
  unfold takeFrom at h
  obtain ⟨-, -, h⟩ := bind_eq_ok.mp h
  obtain ⟨-, -, h⟩ := bind_eq_ok.mp h
  obtain ⟨p, -, h⟩ := bind_eq_ok.mp h
  obtain ⟨q, -, h⟩ := bind_eq_ok.mp h
  obtain ⟨-, -, h⟩ := bind_eq_ok.mp h
  obtain ⟨b₁, hb₁, h⟩ := bind_eq_ok.mp h
  obtain ⟨data, hcopy, h⟩ := bind_eq_ok.mp h
  cases h
  have hlen := memcpy_length hcopy
  refine Nat.le_trans (resize_eq_ok hb₁).2.2 ?_
  show b₁.data.length ≤ data.length
  rw [hlen]

theorem copyLeftOver_cap (h : copyLeftOver a b s = .ok o) : s.o.cap ≤ o.cap := by
  unfold copyLeftOver at h
  split at h
  · exact takeFrom_cap (b := ⟨s.o.data, s.oi⟩) h
  · split at h
    · exact takeFrom_cap (b := ⟨s.o.data, s.oi⟩) h
    · cases h
      exact Nat.le_refl _

theorem copyLeftOver_ne_overrun : copyLeftOver a b s ≠ .error .overrun := by
  unfold copyLeftOver
  split
  · exact takeFrom_ne_overrun
  · split
    · exact takeFrom_ne_overrun
    · exact fun h => nomatch h

/-- The loop's two writes and the one behind it are at `curr` and at the index before it, both of them 32-bit
    numbers. -/
theorem squish_ne_overrun (hcap : 2 ^ 32 ≤ b.cap) (fuel : Nat) : b.squish fuel ≠ .error .overrun := by
  have hinv : ∀ s s' : SquishState, 2 ^ 32 ≤ s.b.cap ∧ s.curr < 2 ^ 32 → squishStep s = .ok s' →
      2 ^ 32 ≤ s'.b.cap ∧ s'.curr < 2 ^ 32 := by
    rintro s s' ⟨hcap, hcurr⟩ hstep
    unfold squishStep at hstep
    obtain ⟨p, -, hstep⟩ := bind_eq_ok.mp hstep
    obtain ⟨q, -, hstep⟩ := bind_eq_ok.mp hstep
    split at hstep
    · obtain ⟨b₁, hb₁, hstep⟩ := bind_eq_ok.mp hstep
      obtain ⟨q', -, hstep⟩ := bind_eq_ok.mp hstep
      obtain ⟨b₂, hb₂, hstep⟩ := bind_eq_ok.mp hstep
      cases hstep
      refine ⟨?_, after_lt _ _⟩
      show 2 ^ 32 ≤ b₂.cap
      rw [(put_eq_ok hb₂).2, (put_eq_ok hb₁).2]
      exact hcap
    · cases hstep
      exact ⟨hcap, hcurr⟩
  have hstep : ∀ s : SquishState, 2 ^ 32 ≤ s.b.cap ∧ s.curr < 2 ^ 32 → squishStep s ≠ .error .overrun := by
    rintro s ⟨hcap, hcurr⟩
    unfold squishStep
    refine bind_ne_error entry_ne_overrun fun p _ => bind_ne_error entry_ne_overrun fun q _ => ?_
    split
    · refine bind_ne_error (put_ne_overrun (Nat.lt_of_lt_of_le (before_lt _) hcap)) fun b₁ hb₁ => ?_
      refine bind_ne_error entry_ne_overrun fun q' _ => ?_
      refine bind_ne_error (put_ne_overrun ?_) fun b₂ _ => ?_
      · rw [(put_eq_ok hb₁).2]
        exact Nat.lt_of_lt_of_le hcurr hcap
      · exact fun h => nomatch h
    · exact fun h => nomatch h
  have hbegin : 2 ^ 32 ≤ b.cap ∧ 2 < 2 ^ 32 := ⟨hcap, by decide⟩
  unfold squish
  refine bind_ne_error check_ne_overrun fun _ _ => bind_ne_error ?_ fun s hloop => ?_
  · intro hloop
    rcases loop_error (fun s : SquishState => 2 ^ 32 ≤ s.b.cap ∧ s.curr < 2 ^ 32) hinv hbegin hloop with
      hrunning | ⟨t, ht, hfail⟩
    · cases hrunning
    · exact hstep t ht hfail
  · have hend := (loop_inv (fun s : SquishState => 2 ^ 32 ≤ s.b.cap ∧ s.curr < 2 ^ 32)
      (fun s s' hs _ hs' => hinv s s' hs hs') hbegin hloop).1
    refine bind_ne_error last_ne_overrun fun p _ => ?_
    refine bind_ne_error (put_ne_overrun (Nat.lt_of_lt_of_le (before_lt _) hend.1)) fun b' _ => ?_
    exact fun h => nomatch h

/-- With no entries `squish` makes no turn, and it has no last entry to write: it stops at the read. -/
theorem squish_empty_ne_overrun (hsize : b.size = 0) (fuel : Nat) : b.squish fuel ≠ .error .overrun := by
  unfold squish
  refine bind_ne_error check_ne_overrun fun _ _ => bind_ne_error ?_ fun s hloop => ?_
  · cases fuel with
    | zero => exact fun h => nomatch h
    | succ fuel =>
        rw [show loop _ _ _ _ _ = _ from squishLoop_empty hsize fuel]
        exact fun h => nomatch h
  · cases fuel with
    | zero => cases hloop
    | succ fuel =>
        cases hloop.symm.trans (squishLoop_empty hsize fuel)
        unfold last
        rw [if_pos hsize]
        exact fun h => nomatch h

/-- `validate` only reads. -/
theorem validate_ne_overrun (fuel : Nat) : b.validate fuel ≠ .error .overrun := by
  have hstep : ∀ i, b.validateStep i ≠ .error .overrun := by
    intro i
    unfold validateStep
    refine bind_ne_error entry_ne_overrun fun p _ => bind_ne_error entry_ne_overrun fun q _ => ?_
    refine bind_ne_error check_ne_overrun fun _ _ => ?_
    exact fun h => nomatch h
  unfold validate
  refine bind_ne_error ?_ fun i _ => fun h => nomatch h
  intro hloop
  rcases loop_error (fun _ => True) (fun _ _ _ _ => trivial) trivial hloop with hrunning | ⟨i, -, hfail⟩
  · cases hrunning
  · exact hstep i hfail

end Wide

end Bitsums
end FOrder.Futurerd
