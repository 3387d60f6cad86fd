import FOrder.Futurerd.Bitsums
import FOrder.Lib.Streaks

/-!
# `Futurerd.BitsumsSquish` — what `merge` does behind its loop

`take_from` appends what is left of one input, `squish` joins the runs that touch, and `validate` looks whether the
entries go up.

`squish` works in place, with two indices. The memory in front of `curr` is what it has kept; from `i` on is what it
has not looked at yet. `Squishing` holds between two turns: the stop of the last run that is kept is not written
yet, since the next run may go on where that one stops. In terms of lists of runs the loop computes
`Streak.squishFrom`, and `Squishing.settles` is the induction on the runs that are left.

Its indices are 32-bit numbers, while the size is not. With `2 ^ 32` entries or more `i` never gets past the last
one, and the loop does not end (`squish_wide`). With none, the last entry is read outside the memory
(`squish_empty`).
-/

namespace FOrder.Futurerd
namespace Bitsums
open Streak

/-! ## The memory

What a copy and a write do to the entries that are in range. `take_from` is a copy behind the last entry; `resize`
copies all of them into new memory. -/

section Memory

variable {b : Bitsums} {xs : List Nat} {i j n v p : Nat}

/-- A copy between two memories that are long enough: the entries in range are those of the source, and the others
    are as before. -/
theorem memcpy_spec {dst src : Cells Nat} (hdst : i + n ≤ dst.length) (hsrc : j + n ≤ src.length) :
    ∃ data, memcpy dst i src j n = .ok data ∧ data.length = dst.length ∧
      ∀ k, data.read k = if i ≤ k ∧ k < i + n then src.read (j + (k - i)) else dst.read k := by
  obtain ⟨data, hdata⟩ : ∃ data, dst.copy i src j n = some data := by
    unfold Cells.copy
    exact ⟨_, if_pos ⟨hdst, hsrc⟩⟩
  obtain ⟨hlen, hread⟩ := Cells.read_copy hdata
  refine ⟨data, ?_, hlen, hread⟩
  unfold memcpy
  rw [if_neg (Nat.not_lt_of_le hdst), hdata]

/-- `resize` keeps the entries. -/
theorem Holds.resize (h : b.Holds xs) (newCap : Nat) :
    ∃ b', b.resize newCap = .ok b' ∧ b'.Holds xs ∧ b'.cap = max b.cap newCap := by
  by_cases hle : newCap ≤ b.cap
  · exact ⟨b, if_pos hle, h, (Nat.max_eq_left hle).symm⟩
  · have hsize : 0 + b.size ≤ b.data.length := by
      rw [Nat.zero_add, h.size]
      exact h.length_le
    have hfresh : 0 + b.size ≤ (Cells.fresh newCap : Cells Nat).length := by
      rw [Cells.length_fresh]
      exact Nat.le_trans hsize (Nat.le_of_not_le hle)
    obtain ⟨data, hdata, hlen, hread⟩ := memcpy_spec hfresh hsize
    refine ⟨⟨data, b.size⟩, ?_, ⟨h.size, ?_⟩, ?_⟩
    · unfold Bitsums.resize
      rw [if_neg hle, hdata]
      rfl
    · intro i v hi
      have hlt := (List.getElem?_eq_some_iff.mp hi).1
      show data.read i = _
      rw [hread, if_pos ⟨Nat.zero_le i, by rw [Nat.zero_add, h.size]; exact hlt⟩, Nat.zero_add, Nat.sub_zero]
      exact h.entries hi
    · show data.length = _
      rw [hlen, Cells.length_fresh, Nat.max_eq_right (Nat.le_of_not_le hle)]

/-- **`take_from` appends** the rest of the other set, when that comes behind. -/
theorem Holds.takeFrom {o : Bitsums} {out rest : List Nat} {start q : Nat} (h : b.Holds out) (ho : o.Holds xs)
    (hrest : xs.drop start = q :: rest) (hlast : out.getLast? = some p) (hle : p ≤ q)
    (hparity : out.length % 2 = start % 2) :
    ∃ b', b.takeFrom o start = .ok b' ∧ b'.Holds (out ++ q :: rest) ∧
      b'.cap = max b.cap (out.length + (q :: rest).length) := by
  have hq : xs[start]? = some q := by
    rw [← Nat.add_zero start, ← List.getElem?_drop, hrest]
    rfl
  have hlt : start < xs.length := (List.getElem?_eq_some_iff.mp hq).1
  have hlen : xs.length - start = (q :: rest).length := by rw [← List.length_drop, hrest]
  obtain ⟨b₁, hb₁, hholds, hcap⟩ := h.resize (out.length + (xs.length - start))
  have hdst : out.length + (xs.length - start) ≤ b₁.data.length := by
    show _ ≤ b₁.cap
    rw [hcap]
    exact Nat.le_max_right _ _
  have hsrc : start + (xs.length - start) ≤ o.data.length := by
    rw [Nat.add_sub_cancel' (Nat.le_of_lt hlt)]
    exact ho.length_le
  obtain ⟨data, hdata, hlen', hread⟩ := memcpy_spec hdst hsrc
  refine ⟨⟨data, out.length + (xs.length - start)⟩, ?_, ⟨?_, ?_⟩, ?_⟩
  · unfold Bitsums.takeFrom check
    rw [ho.size, h.size, if_pos hlt, if_pos hparity, h.last hlast, ho.entry hq]
    show (if p ≤ q then (.ok () : Except Stop Unit) else .error .assertion) >>= _ = _
    rw [if_pos hle, hb₁]
    show memcpy b₁.data b₁.size o.data start (xs.length - start) >>= _ = _
    rw [hholds.size, hdata]
    rfl
  · show out.length + (xs.length - start) = _
    rw [hlen, List.length_append]
  · intro k w hk
    show data.read k = some w
    rcases Nat.lt_or_ge k out.length with hfront | hback
    · rw [List.getElem?_append_left hfront] at hk
      rw [hread, if_neg (fun hin => Nat.not_lt_of_le hin.1 hfront)]
      exact hholds.entries hk
    · rw [List.getElem?_append_right hback] at hk
      have hin := (List.getElem?_eq_some_iff.mp hk).1
      rw [hread, if_pos ⟨hback, by omega⟩]
      refine ho.entries ?_
      rw [← List.getElem?_drop, hrest]
      exact hk
  · show data.length = _
    rw [hlen', ← hlen]
    exact hcap

/-- A write in range. -/
theorem put_of_lt (h : i < b.cap) (v : Nat) : b.put i v = .ok ⟨b.data.set i (some v), b.size⟩ := by
  unfold Bitsums.put
  rw [Cells.write_of_lt h]

/-- What any write leaves as it was. -/
theorem put_eq_ok {b' : Bitsums} (h : b.put i v = .ok b') : b'.size = b.size ∧ b'.cap = b.cap := by
  unfold Bitsums.put at h
  split at h
  · rename_i data hdata
    cases h
    unfold Cells.write at hdata
    split at hdata
    · cases hdata
      exact ⟨rfl, List.length_set⟩
    · cases hdata
  · cases h

end Memory

/-! ## `squish`

The row is rewritten in the memory that it is read from. This is safe because what is kept is never longer than what
has been looked at, so a write is always to an entry that has been read; `Squishing` carries this as an inequality
between the two indices. The row that comes out may be shorter, and `size` is set at the end. -/

section Squish

variable {b : Bitsums} {xs : List Nat} {n : Nat}

/-- The loop of `squish`. -/
abbrev squishLoop (fuel : Nat) (s : SquishState) : Except Stop SquishState :=
  loop .running (fun s : SquishState => s.i < s.b.size) squishStep fuel s

/-- In the middle of `squish`, with `n` entries: `done` and the start of `r` are in front, and from the stop of `r` on
the entries are still to be looked at. -/
structure Squishing (n cap : Nat) (s : SquishState) (done : List (Streak Nat)) (r : Streak Nat)
    (l : List (Streak Nat)) : Prop where
  size : s.b.size = n
  cap_eq : s.b.cap = cap
  fits : n ≤ cap
  small : n < 2 ^ 32
  front : ∀ {k v : Nat}, (flat done ++ [r.start])[k]? = some v → s.b.data.read k = some v
  back : ∀ {k v : Nat}, (r.stop :: flat l)[k]? = some v → s.b.data.read (s.i - 1 + k) = some v
  curr : s.curr = (flat done).length + 2
  curr_le : s.curr ≤ s.i
  i_eq : s.i + (flat l).length = n

/-- One turn: the next run either begins a gap further, and is kept, or goes on where this one stops, and its start
    and this one's stop are dropped. -/
theorem Squishing.step {cap : Nat} {s : SquishState} {done l : List (Streak Nat)} {r t : Streak Nat}
    (h : Squishing n cap s done r (t :: l)) : ∃ s₁, squishStep s = .ok s₁ ∧
      if r.stop < t.start then Squishing n cap s₁ (done ++ [r]) t l else Squishing n cap s₁ done ⟨r.start, t.stop⟩ l := by
  obtain ⟨curr, i, b⟩ := s
  obtain ⟨hsize, hcap, hfits, hsmall, hfront, hback, hcurr, hle, hi⟩ := h
  replace hcap : b.cap = cap := hcap
  replace hcurr : curr = (flat done).length + 2 := hcurr
  replace hle : curr ≤ i := hle
  replace hi : i + (flat l).length + 2 = n := by
    rw [flat_cons, List.length_cons, List.length_cons] at hi
    exact hi
  have hp : b.entry (before i) = .ok r.stop := by
    have hread := hback (k := 0) rfl
    unfold entry
    rw [show before i = i - 1 + 0 by unfold before; omega]
    rw [hread]
  have hq : b.data.read i = some t.start := by
    have hread := hback (k := 1) rfl
    rw [show i - 1 + 1 = i by omega] at hread
    exact hread
  have hq' : b.entry i = .ok t.start := by
    unfold entry
    rw [hq]
  have hai : after i 2 = i + 2 := Nat.mod_eq_of_lt (by omega)
  have hac : after curr 2 = curr + 2 := Nat.mod_eq_of_lt (by omega)
  have hbc : before curr = (flat done).length + 1 := by
    unfold before
    omega
  by_cases hgap : r.stop < t.start
  · have hput : b.put (before curr) r.stop = .ok ⟨b.data.set ((flat done).length + 1) (some r.stop), b.size⟩ := by
      rw [hbc]
      exact put_of_lt (by omega) _
    have hlen : ((flat done ++ [r.start]) : List Nat).length = (flat done).length + 1 := List.length_append
    have hput' : (⟨b.data.set ((flat done).length + 1) (some r.stop), b.size⟩ : Bitsums).put curr t.start =
        .ok ⟨(b.data.set ((flat done).length + 1) (some r.stop)).set curr (some t.start), b.size⟩ := by
      refine put_of_lt ?_ _
      show curr < (b.data.set _ _).length
      rw [List.length_set]
      show curr < b.cap
      omega
    refine ⟨⟨curr + 2, i + 2, ⟨(b.data.set ((flat done).length + 1) (some r.stop)).set curr (some t.start), b.size⟩⟩,
      ?_, ?_⟩
    · unfold squishStep
      rw [hp, hq']
      show (if r.stop < t.start then _ else _) = _
      rw [if_pos hgap, hput]
      have hq₁ : (⟨b.data.set ((flat done).length + 1) (some r.stop), b.size⟩ : Bitsums).entry i = .ok t.start := by
        unfold entry
        rw [Cells.read_set_ne (by omega), hq]
      show Bitsums.entry _ i >>= _ = _
      rw [hq₁]
      show Bitsums.put _ curr t.start >>= _ = _
      rw [hput', hai, hac]
      rfl
    · rw [if_pos hgap]
      refine ⟨hsize, ?_, hfits, hsmall, ?_, ?_, ?_, ?_, ?_⟩
      · show ((b.data.set _ _).set _ _).length = _
        rw [List.length_set, List.length_set]
        exact hcap
      · intro k v hk
        show Cells.read ((b.data.set _ _).set _ _) k = some v
        rw [flat_append, List.append_assoc] at hk
        replace hk : (flat done ++ ([r.start] ++ [r.stop, t.start]))[k]? = some v := hk
        rw [← List.append_assoc] at hk
        rcases Nat.lt_or_ge k ((flat done).length + 1) with hold | hnew
        · rw [List.getElem?_append_left (by omega)] at hk
          rw [Cells.read_set_ne (by omega), Cells.read_set_ne (by omega)]
          exact hfront hk
        · rw [List.getElem?_append_right (by omega), hlen] at hk
          have hk2 : k - ((flat done).length + 1) < 2 := (List.getElem?_eq_some_iff.mp hk).1
          obtain rfl | rfl : k = (flat done).length + 1 ∨ k = (flat done).length + 2 := by omega
          · rw [Nat.sub_self] at hk
            obtain rfl := Option.some.inj hk
            rw [Cells.read_set_ne (by omega)]
            exact Cells.read_set_self (show _ < b.cap by omega)
          · rw [show (flat done).length + 2 - ((flat done).length + 1) = 1 by omega] at hk
            obtain rfl := Option.some.inj hk
            rw [← hcurr]
            refine Cells.read_set_self ?_
            rw [List.length_set]
            show _ < b.cap
            omega
      · intro k v hk
        show Cells.read ((b.data.set _ _).set _ _) (i + 2 - 1 + k) = some v
        rw [Cells.read_set_ne (by omega), Cells.read_set_ne (by omega)]
        have hread := hback (k := k + 2) hk
        rw [show i - 1 + (k + 2) = i + 2 - 1 + k by omega] at hread
        exact hread
      · show curr + 2 = (flat (done ++ [r])).length + 2
        rw [flat_append, List.length_append, hcurr]
        rfl
      · show curr + 2 ≤ i + 2
        omega
      · show i + 2 + (flat l).length = n
        omega
  · refine ⟨⟨curr, i + 2, b⟩, ?_, ?_⟩
    · unfold squishStep
      rw [hp, hq']
      show (if r.stop < t.start then _ else _) = _
      rw [if_neg hgap, hai]
      rfl
    · rw [if_neg hgap]
      refine ⟨hsize, hcap, hfits, hsmall, hfront, ?_, hcurr, Nat.le_add_right_of_le hle, ?_⟩
      · intro k v hk
        show b.data.read (i + 2 - 1 + k) = some v
        have hread := hback (k := k + 2) hk
        rw [show i - 1 + (k + 2) = i + 2 - 1 + k by omega] at hread
        exact hread
      · show i + 2 + (flat l).length = n
        omega

/-- **The loop of `squish`** keeps the squished row but for its last stop, which is the last entry. -/
theorem Squishing.settles {cap : Nat} {s : SquishState} {done l : List (Streak Nat)} {r : Streak Nat}
    (h : Squishing n cap s done r l) : ∃ s' done' r', Settles (fun fuel => squishLoop fuel s) (.ok s') ∧
      Squishing n cap s' done' r' [] ∧ done' ++ [r'] = done ++ squishFrom r l := by
  induction l generalizing s done r with
  | nil =>
      refine ⟨s, done, r, settles_exit (decide_eq_false ?_), h, rfl⟩
      have hi := h.i_eq
      rw [flat_nil, List.length_nil] at hi
      rw [h.size]
      omega
  | cons t l ih =>
      have hgo : decide (s.i < s.b.size) = true := by
        refine decide_eq_true ?_
        have hi := h.i_eq
        rw [flat_cons, List.length_cons] at hi
        rw [h.size]
        omega
      obtain ⟨s₁, hstep, hnext⟩ := h.step
      by_cases hgap : r.stop < t.start
      · rw [if_pos hgap] at hnext
        obtain ⟨s', done', r', hsettles, hend, hrow⟩ := ih hnext
        refine ⟨s', done', r', settles_turn hgo hstep hsettles, hend, ?_⟩
        rw [hrow, squishFrom, if_pos hgap, List.append_assoc]
        rfl
      · rw [if_neg hgap] at hnext
        obtain ⟨s', done', r', hsettles, hend, hrow⟩ := ih hnext
        refine ⟨s', done', r', settles_turn hgo hstep hsettles, hend, ?_⟩
        rw [hrow, squishFrom, if_neg hgap]

/-- **`squish` joins what touches.** -/
theorem Holds.squish {l : List (Streak Nat)} {r : Streak Nat} (h : b.Holds (flat (r :: l)))
    (hsmall : (flat (r :: l)).length < 2 ^ 32) :
    ∃ b', Settles (fun fuel => b.squish fuel) (.ok b') ∧ b'.Holds (flat (squishFrom r l)) := by
  have hbegin : Squishing (flat (r :: l)).length b.cap ⟨2, 2, b⟩ [] r l := by
    refine ⟨h.size, rfl, h.length_le, hsmall, ?_, ?_, rfl, Nat.le_refl 2, ?_⟩
    · intro k v hk
      obtain ⟨hlt, -⟩ := List.getElem?_eq_some_iff.mp hk
      obtain rfl : k = 0 := Nat.lt_one_iff.mp hlt
      exact h.entries hk
    · intro k v hk
      show b.data.read (1 + k) = some v
      rw [Nat.add_comm]
      exact h.entries hk
    · show 2 + (flat l).length = (flat l).length + 1 + 1
      omega
  obtain ⟨s, done, t, ⟨enough, hloop⟩, hend, hrow⟩ := hbegin.settles
  rw [List.nil_append] at hrow
  have hi : s.i = (flat (r :: l)).length := hend.i_eq
  have hcurr := hend.curr
  have hle := hend.curr_le
  have hsize := hend.size
  have hcap : s.b.data.length = b.cap := hend.cap_eq
  have hfits := hend.fits
  have hlast : s.b.last = .ok t.stop := by
    have hread := hend.back (k := 0) rfl
    rw [hi] at hread
    unfold Bitsums.last Bitsums.entry
    rw [if_neg (by omega), hsize, show (flat (r :: l)).length - 1 = (flat (r :: l)).length - 1 + 0 from rfl, hread]
  have hbefore : before s.curr = (flat done).length + 1 := by
    unfold before
    omega
  have hput : s.b.put (before s.curr) t.stop =
      .ok ⟨s.b.data.set ((flat done).length + 1) (some t.stop), s.b.size⟩ := by
    rw [hbefore]
    exact put_of_lt (show _ < s.b.data.length by omega) _
  have hlen : (flat done ++ [t.start]).length = (flat done).length + 1 := List.length_append
  have hflat : flat (squishFrom r l) = (flat done ++ [t.start]) ++ [t.stop] := by
    rw [← hrow, flat_append, List.append_assoc]
    rfl
  refine ⟨⟨s.b.data.set ((flat done).length + 1) (some t.stop), s.curr⟩, ⟨enough, ?_⟩, ?_, ?_⟩
  · intro fuel hfuel
    have heven : check (b.size % 2 ^ 32 % 2 = 0) = .ok () := by
      refine check_of ?_
      rw [h.size, length_flat]
      omega
    have hrun : loop .running (fun s : SquishState => s.i < s.b.size) squishStep fuel ⟨2, 2, b⟩ = .ok s :=
      hloop fuel hfuel
    show b.squish fuel = _
    unfold Bitsums.squish
    rw [heven, ok_bind, hrun, ok_bind, hlast, ok_bind, hput, ok_bind]
    rfl
  · rw [hflat, List.length_append, hlen]
    exact hcurr
  · intro k v hk
    rw [hflat] at hk
    show Cells.read (s.b.data.set _ _) k = some v
    rcases Nat.lt_or_ge k ((flat done).length + 1) with hold | hnew
    · rw [List.getElem?_append_left (by omega)] at hk
      rw [Cells.read_set_ne (by omega)]
      exact hend.front hk
    · rw [List.getElem?_append_right (by omega), hlen] at hk
      have hlt : k - ((flat done).length + 1) < 1 := (List.getElem?_eq_some_iff.mp hk).1
      obtain rfl : k = (flat done).length + 1 := by omega
      rw [Nat.sub_self] at hk
      obtain rfl := Option.some.inj hk
      exact Cells.read_set_self (by omega)

/-- A call that returns does so with all fuel from there on, with the same result. -/
theorem settles_of_squish {fuel : Nat} {b' : Bitsums} (h : b.squish fuel = .ok b') :
    Settles (fun fuel => b.squish fuel) (.ok b') := by
  unfold Bitsums.squish at h ⊢
  obtain ⟨_, hcheck, h⟩ := bind_eq_ok.mp h
  obtain ⟨s, hloop, hrest⟩ := bind_eq_ok.mp h
  rw [hcheck]
  refine (settles_of_loop hloop (fun h => nomatch h)).bind ?_
  rw [hrest]
  exact settles_const _

/-- The index of what is kept is not ahead of the entries that are looked at. -/
theorem Holds.squish_ne_overrun {l : List (Streak Nat)} {r : Streak Nat} (h : b.Holds (flat (r :: l)))
    (hsmall : (flat (r :: l)).length < 2 ^ 32) (fuel : Nat) : b.squish fuel ≠ .error .overrun := by
  obtain ⟨b', hsettles, -⟩ := h.squish hsmall
  intro hfail
  obtain ⟨enough, henough⟩ := hsettles
  have hok : b.squish enough = .ok b' := henough enough (Nat.le_refl _)
  unfold Bitsums.squish at hfail hok
  obtain ⟨_, hcheck, hok⟩ := bind_eq_ok.mp hok
  obtain ⟨s, hloop, hrest⟩ := bind_eq_ok.mp hok
  rw [hcheck, ok_bind] at hfail
  rcases loop_eq_or (settles_of_loop hloop (fun h => nomatch h)) fuel with hsame | hrunning
  · rw [hsame, ok_bind, hrest] at hfail
    cases hfail
  · rw [hrunning] at hfail
    cases hfail

/-- **With `2 ^ 32` entries or more**, the index never gets past the last one. -/
theorem squish_wide (hsize : 2 ^ 32 ≤ b.size) (fuel : Nat) (b' : Bitsums) : b.squish fuel ≠ .ok b' := by
  intro h
  unfold Bitsums.squish at h
  obtain ⟨-, -, h⟩ := bind_eq_ok.mp h
  obtain ⟨s, hloop, -⟩ := bind_eq_ok.mp h
  have hbegin : 2 ^ 32 ≤ b.size ∧ 2 < 2 ^ 32 := ⟨hsize, by decide⟩
  refine loop_stuck (fun s : SquishState => 2 ^ 32 ≤ s.b.size ∧ s.i < 2 ^ 32) ?_ ?_ hbegin hloop
  · rintro s ⟨hwide, hi⟩
    exact decide_eq_true (by omega)
  · rintro s s' ⟨hwide, hi⟩ hstep
    have hlt : after s.i 2 < 2 ^ 32 := Nat.mod_lt _ (by decide)
    unfold squishStep at hstep
    obtain ⟨p, -, hstep⟩ := bind_eq_ok.mp hstep
    obtain ⟨q, -, hstep⟩ := bind_eq_ok.mp hstep
    split at hstep
    · obtain ⟨b₁, hb₁, hstep⟩ := bind_eq_ok.mp hstep
      obtain ⟨q', -, hstep⟩ := bind_eq_ok.mp hstep
      obtain ⟨b₂, hb₂, hstep⟩ := bind_eq_ok.mp hstep
      cases hstep
      refine ⟨?_, hlt⟩
      show 2 ^ 32 ≤ b₂.size
      rw [(put_eq_ok hb₂).1, (put_eq_ok hb₁).1]
      exact hwide
    · cases hstep
      exact ⟨hwide, hlt⟩

/-- With no entries the loop makes no turn. -/
theorem squishLoop_empty (hsize : b.size = 0) (fuel : Nat) : squishLoop (fuel + 1) ⟨2, 2, b⟩ = .ok ⟨2, 2, b⟩ := by
  refine loop_exit (decide_eq_false ?_)
  show ¬2 < b.size
  rw [hsize]
  exact Nat.not_lt_zero 2

/-- Nothing is in the set: there is no last entry. -/
theorem squish_empty (hsize : b.size = 0) (fuel : Nat) (b' : Bitsums) : b.squish fuel ≠ .ok b' := by
  intro h
  unfold Bitsums.squish at h
  obtain ⟨-, -, h⟩ := bind_eq_ok.mp h
  obtain ⟨s, hloop, h⟩ := bind_eq_ok.mp h
  obtain ⟨p, hlast, -⟩ := bind_eq_ok.mp h
  cases fuel with
  | zero => cases hloop
  | succ fuel =>
      cases hloop.symm.trans (squishLoop_empty hsize fuel)
      unfold Bitsums.last at hlast
      rw [if_pos hsize] at hlast
      cases hlast

end Squish

/-! ## `validate`

A check of the result, entry by entry. It can only fail on entries that do not go up, and what `squish` leaves goes
up. -/

section Validate

variable {b : Bitsums} {xs : List Nat}

/-- A turn of `validate` at an entry that has one before it. -/
theorem Holds.validateStep (h : b.Holds xs) (hup : xs.Pairwise (· < ·)) (hsmall : xs.length < 2 ^ 32) {i : Nat}
    (hpos : 1 ≤ i) (hlt : i < xs.length) : b.validateStep i = .ok (i + 1) := by
  have hq := List.getElem?_eq_getElem hlt
  generalize xs[i] = q at hq
  have hp := List.getElem?_eq_getElem (show i - 1 < xs.length by omega)
  generalize xs[i - 1] = p at hp
  have hbefore : before i = i - 1 := by
    unfold before
    omega
  have hafter : after i 1 = i + 1 := Nat.mod_eq_of_lt (by omega)
  have hpq : p < q := getElem?_lt hup hp hq (by omega)
  unfold Bitsums.validateStep
  rw [hbefore, h.entry hp, ok_bind, h.entry hq, ok_bind, check_of hpq, ok_bind, hafter]
  rfl

/-- **`validate` passes** when the entries go up. -/
theorem Holds.validate (h : b.Holds xs) (hup : xs.Pairwise (· < ·)) (hsmall : xs.length < 2 ^ 32) :
    Settles (fun fuel => b.validate fuel) (.ok ()) := by
  have hloop : ∀ n i, xs.length ≤ n + i → 1 ≤ i → ∃ i', Settles (fun fuel =>
      loop .running (fun i : Nat => i < b.size) b.validateStep fuel i) (.ok i') := by
    intro n
    induction n with
    | zero =>
        intro i hi _
        refine ⟨i, settles_exit (decide_eq_false ?_)⟩
        rw [h.size]
        omega
    | succ n ih =>
        intro i hi hpos
        by_cases hlt : i < xs.length
        · obtain ⟨i', hrest⟩ := ih (i + 1) (by omega) (Nat.le_add_left 1 i)
          exact ⟨i', settles_turn (decide_eq_true (by rw [h.size]; exact hlt)) (h.validateStep hup hsmall hpos hlt) hrest⟩
        · refine ⟨i, settles_exit (decide_eq_false ?_)⟩
          rw [h.size]
          exact hlt
  obtain ⟨i', hsettles⟩ := hloop xs.length 1 (Nat.le_add_right _ _) (Nat.le_refl 1)
  exact hsettles.bind (settles_const (.ok ()))

/-- A check that passes does so with all fuel from there on. -/
theorem settles_of_validate {fuel : Nat} (h : b.validate fuel = .ok ()) :
    Settles (fun fuel => b.validate fuel) (.ok ()) := by
  unfold Bitsums.validate at h ⊢
  obtain ⟨i, hloop, -⟩ := bind_eq_ok.mp h
  exact (settles_of_loop hloop (fun h => nomatch h)).bind (settles_const _)

end Validate

end Bitsums
end FOrder.Futurerd
