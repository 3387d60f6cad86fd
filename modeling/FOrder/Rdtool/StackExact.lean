import FOrder.Rdtool.Stack
import Mathlib.Data.List.Basic

/-!
# `Rdtool.StackExact` — the shadow deque is a list with a steal boundary

`Deque` is what the stack is for: its frames, oldest first, and a tail. Each operation on the array does what it
should to them (`Stack.push_spec`, `Stack.pop_spec`, `Stack.stealTop_spec`), as long as no stack has more than
`2 ^ 31` frames and nobody pops an empty one, which no assertion excludes.

`Fits` is about the array: its capacity is `128` times a power of two, and the head is below it, or all ones for an
empty stack. `Valid` adds the tail. In between two statements of an operation a stack may fit without being valid,
for a push adds its frame before the tail is looked at; so most lemmas ask for `Fits` only.

Growing and shrinking copy the array. That no frame is lost is `take_resize`, and that the array shrinks only where
no frame is, is in `popPlain_spec`: it is halved when the frames fit into half of it.
-/

namespace FOrder.Rdtool

variable {D : Type}

/-! ## Faults

An operation is a chain of reads, writes and assertions, each of which may fail. These lemmas run such a chain step by
step, and say what the increments of a 32-bit head come to, the wrap from the empty stack to the first frame included.
-/

/-- An assertion that holds. -/
theorem check_ok {p : Prop} [Decidable p] (h : p) : check p = .ok () := if_pos h

/-- And one that fails. -/
theorem check_error {p : Prop} [Decidable p] (h : ¬p) : check p = .error .assertion := if_neg h

/-- A part that has not failed. -/
theorem ok_bind {α β : Type} (a : α) (k : α → Except Fault β) : (Except.ok a >>= k) = k a := rfl

/-- An assertion that holds may be left out. -/
theorem bind_check {α : Type} {p : Prop} [Decidable p] (h : p) (k : Except Fault α) :
    (do check p; k) = k := by
  rw [check_ok h]
  rfl

/-- All ones and one more is zero: the head of an empty stack, after a push. -/
theorem inc_noHead : inc noHead = 0 := if_pos rfl

/-- Below `2 ^ 31` the head is a plain number. -/
theorem inc_of_lt {x : Nat} (hx : x < 2 ^ 31) : inc x = x + 1 := by
  refine if_neg ?_
  unfold noHead
  omega

/-- `dec` above zero is subtraction. -/
theorem dec_of_ne {x : Nat} (hx : x ≠ 0) : dec x = x - 1 := if_neg hx

/-- The head of the last frame, after a pop. -/
theorem dec_zero : dec 0 = noHead := if_pos rfl

/-- Below `2 ^ 31` the wrapping `inc` undoes `dec`, also at `0`, through the all-ones head. -/
theorem inc_dec {x : Nat} (hx : x < 2 ^ 31) : inc (dec x) = x := by
  by_cases hzero : x = 0
  · rw [hzero, dec_zero, inc_noHead]
  · rw [dec_of_ne hzero, inc_of_lt (by omega)]
    omega

/-! ## The deque

The abstract view. The tail is the boundary up to which frames have been stolen; they stay in the array of the victim,
since their parents are still needed there. A thief begins with copies of the frames below the helper it stole at. -/

/-- What a stack is for. -/
structure Deque (D : Type) where
  frames : List (Frame D)
  tail : Nat

/-- What a thief gets of a victim whose next helper is at `k`. -/
def Deque.stolen (d : Deque D) (k : Nat) : Deque D :=
  ⟨(d.frames.take d.tail).map Frame.markFull ++ (d.frames.drop d.tail).take (k - d.tail), d.tail⟩

namespace Stack

/-- The frames on the stack, oldest first. -/
def frames (σ : Stack D) : List (Frame D) := σ.stack.take σ.size

/-- The deque that a stack is. -/
def deque (σ : Stack D) : Deque D := ⟨σ.frames, σ.tail⟩

/-- The array holds the frames; its capacity is a power of two that a `uint32_t` can hold and can double. -/
structure Fits (σ : Stack D) : Prop where
  length : σ.stack.length = σ.capacity
  pow : ∃ k, σ.capacity = 128 * 2 ^ k ∧ k ≤ 24
  head : σ.head = noHead ∨ σ.head < σ.capacity

/-- A stack between two operations: an empty one has the tail `0`. -/
structure Valid (σ : Stack D) : Prop extends Fits σ where
  tail_le : σ.tail ≤ σ.head
  empty : σ.head = noHead → σ.tail = 0

variable {σ : Stack D}

/-- A capacity starts at the default one, and doubling has not come near the end of the `int`s. -/
theorem Fits.capacity_le (h : σ.Fits) : 128 ≤ σ.capacity ∧ σ.capacity ≤ 2 ^ 31 := by
  obtain ⟨k, hk, hle⟩ := h.pow
  have hone : 1 ≤ 2 ^ k := Nat.one_le_two_pow
  have hpow : 2 ^ k ≤ 2 ^ 24 := Nat.pow_le_pow_right (by decide) hle
  omega

/-- The head is one below the size, and the head of an empty stack is all ones. -/
theorem Fits.size_cases (h : σ.Fits) :
    (σ.size = 0 ∧ σ.head = noHead) ∨ (σ.size = σ.head + 1 ∧ σ.head < σ.capacity) := by
  obtain ⟨-, hcap⟩ := h.capacity_le
  rcases h.head with hempty | hlt
  · refine Or.inl ⟨?_, hempty⟩
    rw [size, hempty, inc_noHead]
  · exact Or.inr ⟨inc_of_lt (by omega), hlt⟩

/-- The frames are in the array. -/
theorem Fits.size_le (h : σ.Fits) : σ.size ≤ σ.capacity := by
  rcases h.size_cases with ⟨hsize, -⟩ | ⟨hsize, hlt⟩ <;> omega

/-- The abstract stack has as many frames as `size` says. -/
theorem Fits.frames_length (h : σ.Fits) : σ.frames.length = σ.size := by
  rw [frames, List.length_take, h.length, Nat.min_eq_left h.size_le]

/-- The head of a stack with frames. -/
theorem Fits.head_ne (h : σ.Fits) (hsize : σ.size ≠ 0) : σ.size = σ.head + 1 ∧ σ.head < σ.capacity := by
  rcases h.size_cases with ⟨hzero, -⟩ | hpos
  · exact absurd hzero hsize
  · exact hpos

/-- The frames are the first entries of the array. -/
theorem frames_getElem? {i : Nat} (hi : i < σ.size) : σ.frames[i]? = σ.stack[i]? :=
  List.getElem?_take_of_lt hi

/-! ## Reading and writing

With `Fits` every frame is inside the array, so a read of one never leaves it; a write to one is a `List.set` of the
frames. -/

/-- Reading a frame passes the assertion. -/
theorem read_spec (h : σ.Fits) {i : Nat} {f : Frame D} (hf : σ.frames[i]? = some f) : σ.read i = .ok f := by
  have hi : i < σ.size := by
    rw [← h.frames_length]
    exact (List.getElem?_eq_some_iff.mp hf).1
  rw [frames_getElem? hi] at hf
  unfold read
  rw [hf]

/-- The newest frame is at the head. -/
theorem ancestor_zero (h : σ.Fits) (hne : σ.size ≠ 0) : σ.ancestor 0 = .ok σ.head := by
  obtain ⟨-, hlt⟩ := h.head_ne hne
  unfold ancestor
  rw [bind_check (Nat.zero_le _), bind_check hlt]
  rfl

/-- And is the last one of the deque. -/
theorem headFrame_spec (h : σ.Fits) {l : List (Frame D)} {f : Frame D} (hf : σ.frames = l ++ [f]) :
    σ.headFrame = .ok f := by
  have hlen := h.frames_length
  rw [hf, List.length_append, List.length_singleton] at hlen
  obtain ⟨hsize, -⟩ := h.head_ne (by omega)
  unfold headFrame
  rw [ancestor_zero h (by omega)]
  refine read_spec h ?_
  rw [hf, show σ.head = l.length by omega]
  simp

/-- Writing to a frame. -/
theorem write_spec (h : σ.Fits) {i : Nat} (hi : i < σ.size) (f : Frame D) :
    ∃ σ', σ.write i f = .ok σ' ∧ σ'.Fits ∧ σ'.frames = σ.frames.set i f ∧ σ'.tail = σ.tail ∧
      σ'.head = σ.head := by
  have hlt : i < σ.stack.length := by
    rw [h.length]
    exact Nat.lt_of_lt_of_le hi h.size_le
  refine ⟨{ σ with stack := σ.stack.set i f }, if_pos hlt, ⟨?_, h.pow, h.head⟩, ?_, rfl, rfl⟩
  · rw [← h.length]
    exact List.length_set
  · exact List.take_set

/-- Writing to the newest one. -/
theorem setHead_spec (h : σ.Fits) {l : List (Frame D)} {g : Frame D} (hf : σ.frames = l ++ [g]) (f : Frame D) :
    ∃ σ', σ.setHead f = .ok σ' ∧ σ'.Fits ∧ σ'.frames = l ++ [f] ∧ σ'.tail = σ.tail ∧ σ'.head = σ.head := by
  have hlen := h.frames_length
  rw [hf, List.length_append, List.length_singleton] at hlen
  obtain ⟨hsize, -⟩ := h.head_ne (by omega)
  obtain ⟨σ', hrun, hfits, hframes, htail, hhead⟩ := write_spec h (show σ.head < σ.size by omega) f
  refine ⟨σ', ?_, hfits, ?_, htail, hhead⟩
  · unfold setHead
    rw [ancestor_zero h (by omega)]
    exact hrun
  · rw [hframes, hf, show σ.head = l.length by omega]
    simp

/-! ## Growing and shrinking

The array is twice as large after a push that finds it full, and half as large after a pop that leaves it mostly
empty. The capacity stays a power of two times `128`, and below `2 ^ 32` as long as there are at most `2 ^ 31` frames.
-/

variable [Inhabited D]

/-- The array is as long as was asked for. -/
theorem resize_length (h : σ.stack.length = σ.capacity) (n : Nat) : (σ.resize n).stack.length = n := by
  simp only [resize, List.length_append, List.length_take, List.length_replicate, h]
  split <;> omega

/-- The frames survive a resize that leaves room for them. -/
theorem take_resize (h : σ.stack.length = σ.capacity) {n m : Nat} (hm : m ≤ n) (hcap : m ≤ σ.capacity) :
    (σ.resize n).stack.take m = σ.stack.take m := by
  have hcopy : m ≤ if n < σ.capacity then n else σ.capacity := by
    split <;> assumption
  unfold resize
  rw [List.take_append_of_le_length, List.take_take, Nat.min_eq_left hcopy]
  rw [List.length_take, h]
  split at hcopy <;> split <;> omega

omit [Inhabited D] in
/-- A stack with one more frame than `σ`. -/
theorem frames_concat {τ : Stack D} (hτ : τ.Fits) (hhead : τ.head = σ.size) (hroom : σ.size < 2 ^ 31)
    (htake : τ.stack.take σ.size = σ.stack.take σ.size) : ∃ f, τ.frames = σ.frames ++ [f] := by
  have hsize : τ.size = σ.size + 1 := by
    rw [size, hhead, inc_of_lt hroom]
  have hlt : σ.size < τ.stack.length := by
    rw [hτ.length]
    have hle := hτ.size_le
    omega
  refine ⟨τ.stack[σ.size], ?_⟩
  rw [frames, hsize, List.take_succ_eq_append_getElem hlt, htake]
  rfl

/-- **`push`** adds a frame, with whatever the array holds there. -/
theorem push_spec (h : σ.Fits) (hroom : σ.size < 2 ^ 31) :
    ∃ f, σ.push.frames = σ.frames ++ [f] ∧ σ.push.Fits ∧ σ.push.tail = σ.tail ∧ σ.push.head = σ.size := by
  obtain ⟨hmin, hmax⟩ := h.capacity_le
  have hle := h.size_le
  have hpush : σ.push = if σ.size = σ.capacity then ({ σ with head := σ.size } : Stack D).doubleCap
      else { σ with head := σ.size } := rfl
  rw [hpush]
  by_cases hfull : σ.size = σ.capacity
  · rw [if_pos hfull]
    -- a full array has a power of two below `2 ^ 31` entries, so it can double
    obtain ⟨k, hk, hk24⟩ := h.pow
    have hk' : k + 1 ≤ 24 := by
      by_contra hge
      obtain rfl : k = 24 := by omega
      omega
    have hdouble : σ.capacity * 2 % 2 ^ 32 = σ.capacity * 2 := by omega
    have hlen : ({ σ with head := σ.size } : Stack D).stack.length = σ.capacity := h.length
    have hfits : ({ σ with head := σ.size } : Stack D).doubleCap.Fits := by
      refine ⟨resize_length hlen _, ⟨k + 1, ?_, hk'⟩, Or.inr ?_⟩
      · show σ.capacity * 2 % 2 ^ 32 = _
        rw [hdouble, hk, Nat.pow_succ, Nat.mul_assoc]
      · show σ.size < σ.capacity * 2 % 2 ^ 32
        omega
    obtain ⟨f, hf⟩ := frames_concat (σ := σ) hfits rfl hroom
      (take_resize (σ := { σ with head := σ.size }) hlen (by show _ ≤ σ.capacity * 2 % 2 ^ 32; omega) hle)
    exact ⟨f, hf, hfits, rfl, rfl⟩
  · rw [if_neg hfull]
    have hfits : ({ σ with head := σ.size } : Stack D).Fits :=
      ⟨h.length, h.pow, Or.inr (Nat.lt_of_le_of_ne hle hfull)⟩
    obtain ⟨f, hf⟩ := frames_concat (σ := σ) hfits rfl hroom rfl
    exact ⟨f, hf, hfits, rfl, rfl⟩

/-- A push and a store into the new frame. -/
theorem push_setHead (h : σ.Fits) (hroom : σ.size < 2 ^ 31) (f : Frame D) :
    ∃ σ', σ.push.setHead f = .ok σ' ∧ σ'.Fits ∧ σ'.frames = σ.frames ++ [f] ∧ σ'.tail = σ.tail ∧
      σ'.head = σ.size := by
  obtain ⟨g, hg, hfits, htail, hhead⟩ := push_spec h hroom
  obtain ⟨σ', hrun, hfits', hframes, htail', hhead'⟩ := setHead_spec hfits hg f
  exact ⟨σ', hrun, hfits', hframes, htail'.trans htail, hhead'.trans hhead⟩

/-- **`Stack_t::pop`** takes the last frame away; the array shrinks only where no frame is. -/
theorem popPlain_spec (h : σ.Fits) (hne : σ.size ≠ 0) :
    σ.popPlain.frames = σ.frames.dropLast ∧ σ.popPlain.Fits ∧ σ.popPlain.tail = σ.tail ∧
      σ.popPlain.head = dec σ.head := by
  obtain ⟨hmin, hmax⟩ := h.capacity_le
  obtain ⟨hsize, hlt⟩ := h.head_ne hne
  have hinc : inc (dec σ.head) = σ.head := inc_dec (by omega)
  have hpop : σ.popPlain = if defaultCapacity < σ.capacity ∧ dec σ.head < σ.capacity / 2
      then ({ σ with head := dec σ.head } : Stack D).halveCap else { σ with head := dec σ.head } := rfl
  have hdrop : σ.frames.dropLast = σ.stack.take σ.head := by
    rw [List.dropLast_eq_take, h.frames_length, frames, List.take_take, hsize,
      show min (σ.head + 1 - 1) (σ.head + 1) = σ.head by omega]
  have hlen : ({ σ with head := dec σ.head } : Stack D).stack.length = σ.capacity := h.length
  rw [hpop, hdrop]
  by_cases hsmall : defaultCapacity < σ.capacity ∧ dec σ.head < σ.capacity / 2
  · rw [if_pos hsmall]
    have hbelow : dec σ.head < σ.capacity / 2 := hsmall.2
    obtain ⟨k, hk, hk24⟩ := h.pow
    obtain ⟨j, rfl⟩ : ∃ j, k = j + 1 := by
      refine Nat.exists_eq_succ_of_ne_zero ?_
      rintro rfl
      have hbig : 128 < σ.capacity := hsmall.1
      omega
    have hhalf : σ.capacity / 2 = 128 * 2 ^ j := by
      rw [hk, Nat.pow_succ]
      omega
    refine ⟨?_, ⟨resize_length hlen _, ⟨j, hhalf, by omega⟩, Or.inr hbelow⟩, rfl, rfl⟩
    have hroom : σ.head ≤ σ.capacity / 2 := by
      by_cases hzero : σ.head = 0
      · omega
      · rw [dec_of_ne hzero] at hbelow
        omega
    have hsize' : ({ σ with head := dec σ.head } : Stack D).halveCap.size = σ.head := hinc
    rw [frames, hsize']
    exact take_resize hlen hroom (Nat.le_of_lt hlt)
  · rw [if_neg hsmall]
    refine ⟨?_, ⟨h.length, h.pow, ?_⟩, rfl, rfl⟩
    · have hsize' : ({ σ with head := dec σ.head } : Stack D).size = σ.head := hinc
      rw [frames, hsize']
    · show dec σ.head = noHead ∨ dec σ.head < σ.capacity
      by_cases hzero : σ.head = 0
      · exact Or.inl (by rw [hzero, dec_zero])
      · rw [dec_of_ne hzero]
        exact Or.inr (by omega)

/-! ## The operations

One specification each: when the operation returns, and the deque then. For `push_helper` and for writes through `at`
it is also said when they do not return, so that the condition of a run is exact. -/

omit [Inhabited D] in
/-- The tail stays at or below the head. -/
theorem Valid.tail_lt (h : σ.Valid) (hne : σ.size ≠ 0) : σ.tail < σ.size := by
  obtain ⟨hsize, -⟩ := h.head_ne hne
  have htail := h.tail_le
  omega

omit [Inhabited D] in
/-- A stack with frames is valid when its tail is one of them. -/
theorem Fits.valid (h : σ.Fits) (htail : σ.tail < σ.size) : σ.Valid := by
  obtain ⟨hsize, hlt⟩ := h.head_ne (Nat.ne_of_gt (Nat.lt_of_le_of_lt (Nat.zero_le _) htail))
  obtain ⟨-, hmax⟩ := h.capacity_le
  refine ⟨h, by omega, fun hempty => ?_⟩
  rw [hempty, noHead] at hlt
  omega

/-- A new stack is valid. -/
theorem valid_new : (new : Stack D).Valid where
  length := List.length_replicate
  pow := ⟨0, rfl, Nat.zero_le 24⟩
  head := Or.inl rfl
  tail_le := Nat.zero_le _
  empty _ := rfl

omit [Inhabited D] in
/-- With frames added, and the tail where it was, a stack is valid. -/
theorem push_valid (h : σ.Valid) {τ : Stack D} {l : List (Frame D)} (hτ : τ.Fits)
    (hframes : τ.frames = σ.frames ++ l) (hl : l ≠ []) (htail : τ.tail = σ.tail) : τ.Valid := by
  refine hτ.valid ?_
  have hlen : 0 < l.length := List.length_pos_iff.mpr hl
  rw [htail, ← hτ.frames_length, hframes, List.length_append, h.frames_length]
  by_cases hzero : σ.size = 0
  · rcases h.size_cases with ⟨-, hempty⟩ | ⟨hsize, -⟩
    · rw [h.empty hempty]
      omega
    · omega
  · have htail := h.tail_lt hzero
    omega

/-- `reset` takes all frames away. -/
theorem reset_spec (h : σ.Fits) : σ.reset.Valid ∧ σ.reset.frames = [] := by
  refine ⟨⟨⟨?_, h.pow, Or.inl rfl⟩, Nat.zero_le _, fun _ => rfl⟩, ?_⟩
  · show (List.replicate (min σ.size σ.stack.length) default ++ σ.stack.drop σ.size).length = σ.capacity
    have hle := h.size_le
    rw [List.length_append, List.length_replicate, List.length_drop, h.length]
    omega
  · rw [frames, show σ.reset.size = 0 from inc_noHead, List.take_zero]

/-- **`pop`** on a stack with a frame passes its assertions: the tail comes down with the head. -/
theorem pop_spec (h : σ.Valid) (hne : σ.size ≠ 0) : ∃ σ', σ.pop = .ok σ' ∧ σ'.Valid ∧
    σ'.frames = σ.frames.dropLast ∧ σ'.tail = min σ.tail (σ.frames.length - 2) := by
  obtain ⟨hframes, hfits, htail, hhead⟩ := popPlain_spec h.toFits hne
  obtain ⟨hsize, hlt⟩ := h.head_ne hne
  obtain ⟨-, hmax⟩ := h.capacity_le
  have htl := h.tail_le
  have hlen := h.frames_length
  unfold pop
  rw [bind_check htl]
  by_cases hzero : σ.head = 0
  · -- the last frame: the head is all ones, and the tail is `0` already
    have hhead' : σ.popPlain.head = noHead := by rw [hhead, hzero, dec_zero]
    have htail' : σ.popPlain.tail = 0 := by omega
    have hpull : ¬σ.popPlain.head < σ.popPlain.tail := by omega
    simp only [if_neg hpull]
    refine ⟨σ.popPlain, ?_, ⟨hfits, by omega, fun _ => htail'⟩, hframes, by omega⟩
    exact bind_check (Nat.le_of_not_lt hpull) _
  · have hhead' : σ.popPlain.head = σ.head - 1 := by rw [hhead, dec_of_ne hzero]
    have hne' : σ.popPlain.head ≠ noHead := by
      unfold noHead
      omega
    by_cases hpull : σ.popPlain.head < σ.popPlain.tail
    · -- the frame at the tail is gone
      simp only [if_pos hpull]
      have hdec : dec σ.popPlain.tail = σ.popPlain.head := by
        rw [dec_of_ne (by omega)]
        omega
      refine ⟨{ σ.popPlain with tail := dec σ.popPlain.tail }, ?_,
        ⟨⟨hfits.length, hfits.pow, hfits.head⟩, Nat.le_of_eq hdec, fun hempty => absurd hempty hne'⟩, hframes, ?_⟩
      · rw [bind_check hdec]
        exact bind_check (Nat.le_of_eq hdec) _
      · show dec σ.popPlain.tail = _
        omega
    · simp only [if_neg hpull]
      refine ⟨σ.popPlain, ?_, ⟨hfits, Nat.le_of_not_lt hpull, fun hempty => absurd hempty hne'⟩, hframes, by omega⟩
      exact bind_check (Nat.le_of_not_lt hpull) _

/-- **`add`** puts the item on the stack. -/
theorem add_spec (h : σ.Valid) (hroom : σ.size < 2 ^ 31) (item : Frame D) :
    ∃ σ', σ.add item = .ok σ' ∧ σ'.Valid ∧ σ'.frames = σ.frames ++ [item] ∧ σ'.tail = σ.tail := by
  obtain ⟨σ', hrun, hfits, hframes, htail, -⟩ := push_setHead h.toFits hroom item
  exact ⟨σ', hrun, push_valid h hfits hframes (by simp) htail, hframes, htail⟩

/-- There is a last frame, and it is no helper. -/
def TopIsPlain (l : List (Frame D)) : Prop := ∃ l' f, l = l' ++ [f] ∧ f.helper = false

omit [Inhabited D] in
/-- It is a question about the last frame. -/
theorem topIsPlain_concat {l : List (Frame D)} {f : Frame D} : TopIsPlain (l ++ [f]) ↔ f.helper = false := by
  constructor
  · rintro ⟨l', g, heq, hg⟩
    obtain ⟨-, heq⟩ := List.append_inj' heq rfl
    rwa [List.singleton_inj.mp heq]
  · exact fun hf => ⟨l, f, rfl, hf⟩

omit [Inhabited D] in
/-- A stack that is not empty has a last frame, at `size - 1`. -/
theorem Fits.exists_last (h : σ.Fits) (hne : σ.size ≠ 0) : ∃ l f, σ.frames = l ++ [f] := by
  have hcons : σ.frames ≠ [] := by
    intro hnil
    have hlen := h.frames_length
    rw [hnil, List.length_nil] at hlen
    omega
  exact ⟨_, _, (List.dropLast_concat_getLast hcons).symm⟩

/-- **`push_helper`** puts a helper on a stack whose last frame is none. -/
theorem pushHelper_spec (h : σ.Valid) (hroom : σ.size < 2 ^ 31) (htop : TopIsPlain σ.frames) :
    ∃ σ' f, σ.pushHelper = .ok σ' ∧ σ'.Valid ∧ σ'.frames = σ.frames ++ [f] ∧ f.flags = frameHelperMask ∧
      σ'.tail = σ.tail := by
  obtain ⟨l, f, hf, hhelper⟩ := htop
  have hlen := h.frames_length
  rw [hf, List.length_append, List.length_singleton] at hlen
  obtain ⟨hsize, hlt⟩ := h.head_ne (by omega)
  have hne : σ.head ≠ noHead := by
    unfold noHead
    omega
  obtain ⟨g, hg, hfits, htail, -⟩ := push_spec h.toFits hroom
  obtain ⟨σ', hrun, hfits', hframes, htail', -⟩ := setHead_spec hfits hg { g with flags := frameHelperMask }
  refine ⟨σ', { g with flags := frameHelperMask }, ?_,
    push_valid h hfits' hframes (by simp) (htail'.trans htail), hframes, rfl, htail'.trans htail⟩
  unfold pushHelper
  rw [bind_check hne, headFrame_spec h.toFits hf]
  simp only [ok_bind]
  rw [bind_check hhelper, headFrame_spec hfits hg]
  exact hrun

/-- On any other stack one of its assertions fails. -/
theorem pushHelper_error (h : σ.Valid) (htop : ¬TopIsPlain σ.frames) : σ.pushHelper = .error .assertion := by
  unfold pushHelper
  by_cases hempty : σ.head = noHead
  · rw [check_error (not_not.mpr hempty)]
    rfl
  · obtain ⟨-, hhead⟩ | ⟨hsize, -⟩ := h.size_cases
    · exact absurd hhead hempty
    · obtain ⟨l, f, hf⟩ := h.toFits.exists_last (by omega)
      rw [hf, topIsPlain_concat] at htop
      rw [bind_check hempty, headFrame_spec h.toFits hf]
      simp only [ok_bind]
      rw [check_error htop]
      rfl

omit [Inhabited D] in
/-- A write through a pointer to a frame. -/
theorem setAt_spec (h : σ.Valid) {i : Nat} (hi : i < σ.frames.length) (f : Frame D) :
    ∃ σ', σ.setAt i f = .ok σ' ∧ σ'.Valid ∧ σ'.frames = σ.frames.set i f ∧ σ'.tail = σ.tail := by
  rw [h.frames_length] at hi
  obtain ⟨hsize, hlt⟩ := h.head_ne (by omega)
  obtain ⟨σ', hrun, hfits, hframes, htail, hhead⟩ := write_spec h.toFits hi f
  refine ⟨σ', ?_, hfits.valid ?_, hframes, htail⟩
  · unfold setAt atIndex
    rw [check_ok (show i ≤ σ.head by omega), check_ok hlt]
    exact hrun
  · rw [← hfits.frames_length, hframes, List.length_set, h.frames_length, htail]
    exact h.tail_lt (by omega)

omit [Inhabited D] in
/-- Where there is no frame, one of the assertions of `at` fails. -/
theorem setAt_error (h : σ.Valid) {i : Nat} (hi : ¬i < σ.frames.length) (f : Frame D) :
    σ.setAt i f = .error .assertion := by
  rw [h.frames_length] at hi
  obtain ⟨-, hmax⟩ := h.capacity_le
  unfold setAt atIndex
  by_cases hle : i ≤ σ.head
  · -- only the empty stack has a head that is not below its size
    have hlt : ¬σ.head < σ.capacity := by
      obtain ⟨-, hempty⟩ | ⟨hsize, -⟩ := h.size_cases
      · rw [hempty, noHead]
        omega
      · omega
    rw [check_ok hle, check_error hlt]
    rfl
  · rw [check_error hle]
    rfl

/-! ## Steals

`steal_top` copies in two loops. The first goes up to the tail of the victim, and its frames have been stolen before,
so they are marked; the second goes on until it meets a helper. It stops at the first one above the tail, so the new
tail is there, and the thief has all that is below. With no helper above the tail the second loop would read behind
the last frame, and what it does then depends on what the array still holds there. -/

/-- The first helper above the tail. -/
structure NextHelper (d : Deque D) (k : Nat) (f : Frame D) : Prop where
  above : d.tail < k
  frame : d.frames[k]? = some f
  helper : f.helper = true
  first : ∀ j g, d.tail < j → j < k → d.frames[j]? = some g → g.helper = false

/-- The first loop of a steal: what is below the victim's tail is copied, and marked full. -/
theorem copyBelow_spec {victim : Stack D} (hv : victim.Fits) (n i : Nat) {thief : Stack D} (ht : thief.Fits)
    (hi : i + n ≤ victim.size) (hroom : thief.size + n ≤ 2 ^ 31) :
    ∃ thief', copyBelow victim n i thief = .ok thief' ∧ thief'.Fits ∧ thief'.tail = thief.tail ∧
      thief'.frames = thief.frames ++ ((victim.frames.drop i).take n).map Frame.markFull := by
  induction n generalizing i thief with
  | zero => exact ⟨thief, rfl, ht, rfl, by simp⟩
  | succ n ih =>
      have hlt : i < victim.frames.length := by
        rw [hv.frames_length]
        omega
      have hf := List.getElem?_eq_getElem hlt
      obtain ⟨t₁, hrun₁, hfits₁, hframes₁, htail₁, -⟩ := push_setHead ht (by omega) victim.frames[i]
      obtain ⟨t₂, hrun₂, hfits₂, hframes₂, htail₂, -⟩ := setHead_spec hfits₁ hframes₁ victim.frames[i].markFull
      have hsize₂ : t₂.size = thief.size + 1 := by
        rw [← hfits₂.frames_length, hframes₂, List.length_append, ht.frames_length]
        rfl
      obtain ⟨t₃, hrun₃, hfits₃, htail₃, hframes₃⟩ := ih (i + 1) hfits₂ (by omega) (by omega)
      refine ⟨t₃, ?_, hfits₃, htail₃.trans (htail₂.trans htail₁), ?_⟩
      · simp only [copyBelow]
        rw [read_spec hv hf, ok_bind, hrun₁, ok_bind, headFrame_spec hfits₁ hframes₁, ok_bind, hrun₂, ok_bind]
        exact hrun₃
      · rw [hframes₃, hframes₂, List.drop_eq_getElem_cons hlt, List.take_succ_cons, List.map_cons,
          List.append_assoc]
        rfl

/-- Its second loop: what is from the tail on is copied, up to the next helper. -/
theorem copyToHelper_spec {victim : Stack D} (hv : victim.Fits) (n : Nat) {thief : Stack D} (ht : thief.Fits)
    {f g : Frame D} {k : Nat} (hk : victim.tail ≤ k) (hf : victim.frames[victim.tail]? = some f)
    (hg : victim.frames[k]? = some g) (hhelper : g.helper = true)
    (hfirst : ∀ j g, victim.tail ≤ j → j < k → victim.frames[j]? = some g → g.helper = false)
    (hn : k - victim.tail < n) (hroom : thief.size + (k - victim.tail) ≤ 2 ^ 31) :
    ∃ thief', copyToHelper n victim f thief = .ok ({ victim with tail := k }, g, thief') ∧ thief'.Fits ∧
      thief'.tail = thief.tail ∧
      thief'.frames = thief.frames ++ (victim.frames.drop victim.tail).take (k - victim.tail) := by
  induction n generalizing victim f thief with
  | zero => omega
  | succ n ih =>
      unfold copyToHelper
      by_cases heq : victim.tail = k
      · -- at the helper
        obtain rfl : f = g := by
          rw [heq, hg] at hf
          exact (Option.some.inj hf).symm
        refine ⟨thief, ?_, ht, rfl, by rw [heq]; simp⟩
        rw [if_pos hhelper, ← heq]
      · have hlt : victim.tail < k := Nat.lt_of_le_of_ne hk heq
        have hklt : k < victim.size := by
          rw [← hv.frames_length]
          exact (List.getElem?_eq_some_iff.mp hg).1
        obtain ⟨hsize, hhead⟩ := hv.head_ne (by omega)
        obtain ⟨-, hmax⟩ := hv.capacity_le
        have hnot : ¬f.helper = true := by
          rw [hfirst _ f (Nat.le_refl _) hlt hf]
          decide
        obtain ⟨t₁, hrun₁, hfits₁, hframes₁, htail₁, -⟩ := push_setHead ht (by omega) f
        have hsize₁ : t₁.size = thief.size + 1 := by
          rw [← hfits₁.frames_length, hframes₁, List.length_append, ht.frames_length]
          rfl
        have hinc : inc victim.tail = victim.tail + 1 := inc_of_lt (by omega)
        have hlt' : victim.tail + 1 < victim.frames.length := by
          rw [hv.frames_length]
          omega
        have hf' := List.getElem?_eq_getElem hlt'
        have hv' : ({ victim with tail := victim.tail + 1 } : Stack D).Fits := ⟨hv.length, hv.pow, hv.head⟩
        obtain ⟨t₂, hrun₂, hfits₂, htail₂, hframes₂⟩ := ih hv'
          hfits₁ hlt hf' hg (fun j g hj hjk => hfirst j g (Nat.le_of_succ_le hj) hjk)
          (show k - (victim.tail + 1) < n by omega) (show t₁.size + (k - (victim.tail + 1)) ≤ 2 ^ 31 by omega)
        refine ⟨t₂, ?_, hfits₂, htail₂.trans htail₁, ?_⟩
        · rw [if_neg hnot, bind_check (by omega), hrun₁, ok_bind, hinc]
          dsimp only
          rw [read_spec hv' hf', ok_bind]
          exact hrun₂
        · have hvtail : victim.tail < victim.frames.length := Nat.lt_of_succ_lt hlt'
          obtain rfl : victim.frames[victim.tail] = f := by
            rw [List.getElem?_eq_getElem hvtail] at hf
            exact Option.some.inj hf
          rw [hframes₂, hframes₁, List.drop_eq_getElem_cons hvtail, show k - victim.tail = k - (victim.tail + 1) + 1 by omega,
            List.take_succ_cons, List.append_assoc]
          rfl

/-- **`steal_top`** gives an empty thief the frames below the next helper, those below the tail marked full, and
    moves the tail of the victim to that helper. The last frame it gives must be no helper itself. -/
theorem stealTop_spec {victim thief : Stack D} (hv : victim.Valid) (ht : thief.Valid) {k : Nat} {f : Frame D}
    (hk : NextHelper victim.deque k f) :
    (thief.frames = [] ∧ TopIsPlain (victim.deque.stolen k).frames →
      ∃ victim' thief', victim.stealTop thief = .ok (victim', thief') ∧ victim'.Valid ∧ thief'.Valid ∧
        victim'.deque = ⟨victim.frames, k⟩ ∧ thief'.deque = victim.deque.stolen k) ∧
      (¬(thief.frames = [] ∧ TopIsPlain (victim.deque.stolen k).frames) →
        victim.stealTop thief = .error .assertion) := by
  have hkframe : victim.frames[k]? = some f := hk.frame
  have habove : victim.tail < k := hk.above
  have hklt : k < victim.size := by
    rw [← hv.frames_length]
    exact (List.getElem?_eq_some_iff.mp hkframe).1
  obtain ⟨hsize, hhead⟩ := hv.head_ne (by omega)
  obtain ⟨-, hmax⟩ := hv.capacity_le
  unfold stealTop
  rw [bind_check (show victim.tail ≠ noHead by unfold noHead; omega), bind_check hv.tail_le]
  have hnil : thief.frames = [] ↔ thief.size = 0 := by
    rw [← ht.frames_length, List.length_eq_zero_iff]
  rw [hnil]
  by_cases hempty : thief.size = 0
  · rw [bind_check hempty, and_iff_right hempty]
    dsimp only
    -- the frames below the tail
    have hfits₀ : ({ thief with tail := victim.tail } : Stack D).Fits := ⟨ht.length, ht.pow, ht.head⟩
    have hsize₀ : ({ thief with tail := victim.tail } : Stack D).size = 0 := hempty
    have hframes₀ : ({ thief with tail := victim.tail } : Stack D).frames = [] := by
      rw [frames, hsize₀, List.take_zero]
    obtain ⟨t₁, hrun₁, hfits₁, htail₁, hframes₁⟩ := copyBelow_spec hv.toFits victim.tail 0 hfits₀ (by omega) (by omega)
    rw [hframes₀, List.nil_append, List.drop_zero] at hframes₁
    have hsize₁ : t₁.size = victim.tail := by
      rw [← hfits₁.frames_length, hframes₁, List.length_map, List.length_take, hv.frames_length]
      omega
    -- the frame at the tail
    have hlt : victim.tail < victim.frames.length := by
      rw [hv.frames_length]
      omega
    obtain ⟨t₂, hrun₂, hfits₂, hframes₂, htail₂, -⟩ := push_setHead hfits₁ (by omega) victim.frames[victim.tail]
    have hsize₂ : t₂.size = victim.tail + 1 := by
      rw [← hfits₂.frames_length, hframes₂, List.length_append, hfits₁.frames_length, hsize₁]
      rfl
    -- and on to the helper
    have hinc : inc victim.tail = victim.tail + 1 := inc_of_lt (by omega)
    have hlt' : victim.tail + 1 < victim.frames.length := by
      rw [hv.frames_length]
      omega
    have hf' := List.getElem?_eq_getElem hlt'
    have hv' : ({ victim with tail := victim.tail + 1 } : Stack D).Fits := ⟨hv.length, hv.pow, hv.head⟩
    obtain ⟨t₃, hrun₃, hfits₃, htail₃, hframes₃⟩ := copyToHelper_spec hv' victim.stack.length hfits₂
      (show victim.tail + 1 ≤ k from habove) hf' hkframe hk.helper (fun j g hj hjk => hk.first j g hj hjk)
      (show k - (victim.tail + 1) < victim.stack.length by rw [hv.length]; omega)
      (show t₂.size + (k - (victim.tail + 1)) ≤ 2 ^ 31 by omega)
    have htail₃' : t₃.tail = victim.tail := htail₃.trans (htail₂.trans htail₁)
    have hall : t₃.frames = (victim.deque.stolen k).frames := by
      show _ = (victim.frames.take victim.tail).map Frame.markFull ++ (victim.frames.drop victim.tail).take (k - victim.tail)
      rw [hframes₃, hframes₂, hframes₁, List.append_assoc, List.drop_eq_getElem_cons hlt,
        show k - victim.tail = k - (victim.tail + 1) + 1 by omega, List.take_succ_cons]
      rfl
    have hsize₃ : t₃.size = k := by
      rw [← hfits₃.frames_length, hall]
      show ((victim.frames.take victim.tail).map Frame.markFull ++
        (victim.frames.drop victim.tail).take (k - victim.tail)).length = k
      rw [List.length_append, List.length_map, List.length_take, List.length_take, List.length_drop, hv.frames_length]
      omega
    obtain ⟨l, g, hg⟩ := hfits₃.exists_last (by omega)
    have htop : TopIsPlain (victim.deque.stolen k).frames ↔ g.helper = false := by
      rw [← hall, hg]
      exact topIsPlain_concat
    rw [htop]
    rw [hrun₁, ok_bind, read_spec hv.toFits (List.getElem?_eq_getElem hlt), ok_bind, hrun₂, ok_bind, hinc]
    rw [read_spec hv' hf', ok_bind, hrun₃, ok_bind]
    dsimp only
    rw [if_neg (show ¬victim.head < k by omega), bind_check hk.helper, bind_check (show k ≤ victim.head by omega),
      headFrame_spec hfits₃ hg, ok_bind]
    constructor
    · intro hhelper
      refine ⟨{ victim with tail := k }, t₃, bind_check hhelper _, ?_, hfits₃.valid (by omega), rfl, ?_⟩
      · have hvk : ({ victim with tail := k } : Stack D).Fits := ⟨hv.length, hv.pow, hv.head⟩
        exact hvk.valid hklt
      · rw [deque, hall, htail₃']
        rfl
    · intro hhelper
      rw [check_error hhelper]
      rfl
  · refine ⟨fun hok => absurd hok.1 hempty, fun _ => ?_⟩
    rw [check_error hempty]
    rfl

end Stack
end FOrder.Rdtool
