import FOrder.Futurerd.Bitvector
import FOrder.Lib.Memory
import Mathlib.Data.List.GetD
import Mathlib.Data.Option.Basic
import Mathlib.Data.Set.Insert

/-!
# `Futurerd.BitvectorMemory` — `bitvector` and its memory

`Bitvector` is what a vector holds; here it is the count of blocks and the memory that the pointer leads to.
`malloc` is asked for a 64-bit number of bytes, which wraps, and gives blocks that nothing has been written to.
Memory never runs out, and `malloc(0)` is not a null pointer.

`Tracks` holds the one against the other, operation by operation. It says that the memory has all the blocks, and
this is what wraps: with `2 ^ 62` blocks or more the number of bytes is not four times that of the blocks. Only
`resize` can be asked for so many. `set` grows to two times the block that it needs at most, which is far below
(`newSize_lt`).

`AllHold` is the invariant of a program with any number of vectors, and `vectors_are_sets` its induction.
-/

namespace FOrder.Futurerd

/-- `bitvector`, with the memory at `data`; a null pointer has none. -/
structure RawVector where
  numBlocks : Nat
  data : Cells Block
  deriving DecidableEq

namespace RawVector

/-- The blocks that `sizeof(block_t) * n` bytes are. -/
def blocksOf (n : Nat) : Nat := 4 * n % 2 ^ 64 / 4

/-- `unsafe_resize`: the memory is replaced by a longer one, which begins with the old blocks. -/
def unsafeResize (v : RawVector) (newSize : Nat) : Option RawVector := do
  let newData ← (Cells.fresh (blocksOf newSize)).copy 0 v.data 0 (blocksOf v.numBlocks)
  some ⟨newSize, newData⟩

/-- `resize`: the new blocks are set to zero. -/
def resize (v : RawVector) (newSize : Nat) : Option RawVector :=
  if newSize ≤ v.numBlocks then some v
  else do
    let oldSize := v.numBlocks
    let v ← v.unsafeResize newSize
    let data ← v.data.fill oldSize (blocksOf (newSize - oldSize)) 0
    some { v with data := data }

/-- `bitvector()`: the null pointer, resized to `DEFAULT_SIZE`. -/
def new : Option RawVector := resize ⟨0, []⟩ 0

/-- `bitvector(const bitvector&)`. -/
def copy (that : RawVector) : Option RawVector := do
  let v ← unsafeResize ⟨0, []⟩ that.numBlocks
  let data ← v.data.copy 0 that.data 0 (blocksOf v.numBlocks)
  some { v with data := data }

/-- The first half of `set`: make room for the block. -/
def grow (v : RawVector) (block : Nat) : Option RawVector :=
  if v.numBlocks ≤ block then
    if block < Bitvector.newSize block then v.resize (Bitvector.newSize block) else none
  else some v

/-- `set`. -/
def set (v : RawVector) (y : Nat) : Option RawVector := do
  let v ← v.grow (y / 32)
  guard (y / 32 < v.numBlocks)
  let b ← v.data.read (y / 32)
  let data ← v.data.write (y / 32) (b ||| (mask y).setWidth 32)
  some { v with data := data }

/-- `get`; `none` is a read that leaves the memory, or of a block that has never been written. -/
def get (v : RawVector) (y : Nat) : Option Bool :=
  if v.numBlocks ≤ y / 32 then some false
  else do
    let b ← v.data.read (y / 32)
    some (b.setWidth 64 &&& mask y != 0)

end RawVector

/-! ## What the memory holds -/

/-- The memory holds the blocks of `w`, which are few enough for a 64-bit number of bytes. -/
structure Tracks (v : RawVector) (w : Bitvector) : Prop where
  numBlocks : v.numBlocks = w.numBlocks
  data : v.data = w.blocks.map some
  small : w.numBlocks < 2 ^ 62

section Tracks

variable {v : RawVector} {w : Bitvector}

/-- The count fits as long as four times the blocks do. -/
theorem blocksOf_of_lt {n : Nat} (h : n < 2 ^ 62) : RawVector.blocksOf n = n := by
  unfold RawVector.blocksOf
  omega

/-- The blocks that `set` makes room for are few enough. -/
theorem newSize_lt {block : Nat} (h : block < 2 ^ 59) : Bitvector.newSize block < 2 ^ 62 := by
  unfold Bitvector.newSize
  split
  · rename_i h0
    have hlog : Nat.log2 block < 59 := (Nat.log2_lt h0).mpr h
    unfold p2 clzl
    rw [Nat.add_sub_cancel]
    refine Nat.lt_of_le_of_lt (Nat.mod_le _ _) ?_
    exact Nat.pow_lt_pow_right (by decide) (by omega)
  · decide

/-- The memory is as long as the count of blocks. -/
theorem Tracks.length (h : Tracks v w) : v.data.length = w.numBlocks := by
  rw [h.data, List.length_map]
  rfl

/-- The copy that every growth begins with: the old blocks, and as many new ones as are missing. -/
theorem Tracks.unsafeResize (h : Tracks v w) {n : Nat} (hn : n < 2 ^ 62) (hle : w.numBlocks ≤ n) :
    v.unsafeResize n = some ⟨n, w.blocks.map some ++ Cells.fresh (n - w.numBlocks)⟩ := by
  have hlen := h.length
  have hfits : 0 + w.numBlocks ≤ (Cells.fresh n : Cells Block).length ∧ 0 + w.numBlocks ≤ v.data.length := by
    rw [Nat.zero_add, Cells.length_fresh, hlen]
    exact ⟨hle, Nat.le_refl _⟩
  have htake : v.data.take w.numBlocks = w.blocks.map some := by
    rw [← hlen, List.take_length, h.data]
  unfold RawVector.unsafeResize Cells.copy
  rw [blocksOf_of_lt hn, h.numBlocks, blocksOf_of_lt h.small, if_pos hfits]
  simp only [List.take_zero, List.nil_append, List.drop_zero, htake, Nat.zero_add]
  unfold Cells.fresh
  rw [List.drop_replicate]
  rfl

/-- Growing keeps the blocks and appends zeros. -/
theorem Tracks.resize (h : Tracks v w) {n : Nat} (hn : n < 2 ^ 62) :
    ∃ v', v.resize n = some v' ∧ Tracks v' (w.resize n) := by
  unfold RawVector.resize Bitvector.resize
  rw [h.numBlocks]
  by_cases hle : n ≤ w.numBlocks
  · rw [if_pos hle, if_pos hle]
    exact ⟨v, rfl, h⟩
  · have hlt := Nat.lt_of_not_le hle
    have hlen : (w.blocks.map some).length = w.numBlocks := List.length_map _
    rw [if_neg hle, if_neg hle, h.unsafeResize hn (Nat.le_of_lt hlt)]
    simp only [Option.bind_eq_bind, Option.bind_some]
    unfold Cells.fill
    rw [blocksOf_of_lt (by omega), if_pos ?_]
    · refine ⟨_, rfl, ?_, ?_, ?_⟩
      · show n = (w.blocks ++ List.replicate _ 0).length
        rw [List.length_append, List.length_replicate]
        show n = w.numBlocks + (n - w.numBlocks)
        omega
      · show List.take w.numBlocks _ ++ List.replicate (n - w.numBlocks) (some 0) ++ List.drop _ _ =
          List.map some (w.blocks ++ List.replicate (n - w.numBlocks) 0)
        rw [List.take_left' hlen, List.drop_of_length_le, List.append_nil, List.map_append, List.map_replicate]
        rw [List.length_append, hlen, Cells.length_fresh]
      · show (w.blocks ++ List.replicate _ 0).length < _
        rw [List.length_append, List.length_replicate]
        show w.numBlocks + (n - w.numBlocks) < _
        omega
    · rw [List.length_append, hlen, Cells.length_fresh]

/-- A copy has memory of its own, with the same blocks. -/
theorem Tracks.copy (h : Tracks v w) : ∃ v', v.copy = some v' ∧ Tracks v' w.copy := by
  have hnull : Tracks ⟨0, []⟩ .new := ⟨rfl, rfl, by decide⟩
  have hnew : RawVector.unsafeResize ⟨0, []⟩ w.numBlocks = some ⟨w.numBlocks, Cells.fresh w.numBlocks⟩ :=
    hnull.unsafeResize h.small (Nat.zero_le _)
  have hlen : (w.blocks.map some).length = w.numBlocks := List.length_map _
  have hcopy : (Cells.fresh w.numBlocks).copy 0 (w.blocks.map some) 0 w.numBlocks = some (w.blocks.map some) := by
    conv_lhs => rw [← hlen]
    exact Cells.copy_whole (Cells.length_fresh _)
  refine ⟨⟨w.numBlocks, w.blocks.map some⟩, ?_, rfl, rfl, h.small⟩
  unfold RawVector.copy
  rw [h.numBlocks, hnew]
  simp only [Option.bind_eq_bind, Option.bind_some]
  rw [blocksOf_of_lt h.small, h.data, hcopy]
  rfl

/-- No read leaves the memory, and none is of a block that was never written. -/
theorem Tracks.get (h : Tracks v w) (y : Nat) : v.get y = some (w.get y) := by
  unfold RawVector.get Bitvector.get
  rw [h.numBlocks, h.data]
  by_cases hout : w.numBlocks ≤ y / 32
  · rw [if_pos hout, List.getElem?_eq_none hout]
  · have hin : y / 32 < w.blocks.length := Nat.lt_of_not_le hout
    have hb := List.getElem?_eq_getElem hin
    generalize w.blocks[y / 32] = b at hb
    have hread : Cells.read (w.blocks.map some) (y / 32) = some b := by
      rw [Cells.read_eq_some, List.getElem?_map, hb]
      rfl
    rw [if_neg hout, hread, hb]
    rfl

/-- The first half of `set`. -/
theorem Tracks.grow (h : Tracks v w) {block : Nat} (hblock : block < 2 ^ 59) :
    ∃ v' w', v.grow block = some v' ∧ w.grow block = some w' ∧ Tracks v' w' := by
  unfold RawVector.grow Bitvector.grow
  rw [h.numBlocks]
  by_cases hin : w.numBlocks ≤ block
  · have hroom := Bitvector.lt_newSize (show block < 2 ^ 63 by omega)
    obtain ⟨v', hv', htracks⟩ := h.resize (newSize_lt hblock)
    exact ⟨v', _, by rw [if_pos hin, if_pos hroom, hv'], by rw [if_pos hin, if_pos hroom], htracks⟩
  · exact ⟨v, w, if_neg hin, if_neg hin, h⟩

/-- A bit is set in a block that is there, after growing. -/
theorem Tracks.set (h : Tracks v w) {y : Nat} (hy : y < 2 ^ 64) :
    ∃ v' w', v.set y = some v' ∧ w.set y = some w' ∧ Tracks v' w' := by
  obtain ⟨v₁, w₁, hv₁, hw₁, h₁⟩ := h.grow (show y / 32 < 2 ^ 59 by omega)
  obtain ⟨w₂, hw₂, hlt, -⟩ := Bitvector.grow_spec (v := w) (show y / 32 < 2 ^ 63 by omega)
  obtain rfl := Option.some.inj (hw₁.symm.trans hw₂)
  have hb := List.getElem?_eq_getElem (l := w₁.blocks) hlt
  generalize w₁.blocks[y / 32] = b at hb
  have hread : v₁.data.read (y / 32) = some b := by
    rw [Cells.read_eq_some, h₁.data, List.getElem?_map, hb]
    rfl
  have hwrite : v₁.data.write (y / 32) (b ||| (mask y).setWidth 32) =
      some (v₁.data.set (y / 32) (some (b ||| (mask y).setWidth 32))) :=
    Cells.write_of_lt (by rw [h₁.length]; exact hlt)
  refine ⟨⟨v₁.numBlocks, v₁.data.set (y / 32) (some (b ||| (mask y).setWidth 32))⟩,
    ⟨some (w₁.blocks.set (y / 32) (b ||| (mask y).setWidth 32))⟩, ?_, ?_, ?_, ?_, ?_⟩
  · unfold RawVector.set
    have hguard : (guard (y / 32 < v₁.numBlocks) : Option Unit) = some () := if_pos (by rw [h₁.numBlocks]; exact hlt)
    simp only [hv₁, hguard, hread, hwrite, Option.bind_eq_bind, Option.bind_some]
  · unfold Bitvector.set
    rw [hw₁, Option.bind_eq_bind, Option.bind_some, hb]
    rfl
  · rw [h₁.numBlocks]
    show w₁.blocks.length = (w₁.blocks.set _ _).length
    rw [List.length_set]
  · show v₁.data.set _ _ = (w₁.blocks.set _ _).map some
    rw [h₁.data, List.map_set]
  · show (w₁.blocks.set _ _).length < _
    rw [List.length_set]
    exact h₁.small

end Tracks
/-! ## Runs -/

/-- What a program does with its vectors; they are numbered in the order in which they are made. -/
inductive VectorOp where
  | new
  | copy (i : Nat)
  | resize (i newSize : Nat)
  | set (i y : Nat)
  deriving DecidableEq

/-- One operation on the vectors so far. -/
def vectorStep (vs : List RawVector) : VectorOp → Option (List RawVector)
  | .new => do
      let v ← RawVector.new
      some (vs ++ [v])
  | .copy i => do
      let that ← vs[i]?
      let v ← that.copy
      some (vs ++ [v])
  | .resize i newSize => do
      let v ← vs[i]?
      let v ← v.resize newSize
      some (vs.set i v)
  | .set i y => do
      let v ← vs[i]?
      let v ← v.set y
      some (vs.set i v)

/-- The numbers that each vector is meant to have: those set in it, and in the one it was copied from before. -/
def setStep (ss : List (Set Nat)) : VectorOp → List (Set Nat)
  | .new => ss ++ [∅]
  | .copy i => ss ++ [ss.getD i ∅]
  | .resize _ _ => ss
  | .set i y => ss.set i (insert y (ss.getD i ∅))

/-- An operation on one of `n` vectors, with 64-bit arguments. -/
def VectorOp.Allowed (n : Nat) : VectorOp → Prop
  | .new => True
  | .copy i => i < n
  | .resize i newSize => i < n ∧ newSize < 2 ^ 64
  | .set i y => i < n ∧ y < 2 ^ 64

/-- The operations of a program, with the sets that are meant. -/
inductive VectorRun : List VectorOp → List (Set Nat) → Prop where
  | nil : VectorRun [] []
  | step {ops ss op} (h : VectorRun ops ss) (hop : op.Allowed ss.length) : VectorRun (ops ++ [op]) (setStep ss op)

/-- Every operation returns, and `get` is membership. -/
def SetsOf (ops : List VectorOp) (ss : List (Set Nat)) : Prop :=
  ∃ vs, ops.foldlM vectorStep [] = some vs ∧ vs.length = ss.length ∧ ∀ (i : Nat) (v : RawVector) (s : Set Nat),
    vs[i]? = some v → ss[i]? = some s → ∀ z, z < 2 ^ 64 → ∃ answer, v.get z = some answer ∧ (answer = true ↔ z ∈ s)

/-- No more than `2 ^ 62` blocks are asked for at once: their bytes can be counted. -/
def VectorOp.Countable : VectorOp → Prop
  | .resize _ newSize => newSize < 2 ^ 62
  | _ => True

/-- The vector has the numbers of the set. -/
def HoldsSet (v : RawVector) (s : Set Nat) : Prop := ∃ w, Tracks v w ∧ ∀ z, w.get z = true ↔ z ∈ s

/-- Each vector has the numbers that are meant. -/
structure AllHold (vs : List RawVector) (ss : List (Set Nat)) : Prop where
  length : vs.length = ss.length
  holds : ∀ {i : Nat} {v : RawVector} {s : Set Nat}, vs[i]? = some v → ss[i]? = some s → HoldsSet v s

section AllHold

variable {vs : List RawVector} {ss : List (Set Nat)} {i : Nat} {v : RawVector} {s : Set Nat}

/-- The vector with a number has its set. -/
theorem AllHold.get (h : AllHold vs ss) (hi : i < ss.length) :
    ∃ v, vs[i]? = some v ∧ HoldsSet v (ss.getD i ∅) := by
  have hvs : i < vs.length := by
    rw [h.length]
    exact hi
  refine ⟨vs[i], List.getElem?_eq_getElem hvs, ?_⟩
  rw [List.getD_eq_getElem _ _ hi]
  exact h.holds (List.getElem?_eq_getElem hvs) (List.getElem?_eq_getElem hi)

/-- One more vector. -/
theorem AllHold.concat (h : AllHold vs ss) (hv : HoldsSet v s) : AllHold (vs ++ [v]) (ss ++ [s]) where
  length := by
    rw [List.length_append, List.length_append, h.length]
    rfl
  holds {i v' s'} hv' hs' := by
    rcases Nat.lt_or_ge i vs.length with hlt | hge
    · rw [List.getElem?_append_left hlt] at hv'
      rw [List.getElem?_append_left (by rw [← h.length]; exact hlt)] at hs'
      exact h.holds hv' hs'
    · rw [List.getElem?_append_right hge] at hv'
      rw [List.getElem?_append_right (by rw [← h.length]; exact hge), ← h.length] at hs'
      rw [List.getElem?_singleton] at hv' hs'
      by_cases hnew : i - vs.length = 0
      · rw [if_pos hnew] at hv' hs'
        obtain rfl := Option.some.inj hv'
        obtain rfl := Option.some.inj hs'
        exact hv
      · rw [if_neg hnew] at hv'
        cases hv'

/-- Another vector in the place of one. -/
theorem AllHold.set (h : AllHold vs ss) (hv : HoldsSet v s) : AllHold (vs.set i v) (ss.set i s) where
  length := by
    rw [List.length_set, List.length_set, h.length]
  holds {j v' s'} hv' hs' := by
    by_cases hij : i = j
    · subst hij
      have hi : i < vs.length := by
        have hlt := (List.getElem?_eq_some_iff.mp hv').1
        rw [List.length_set] at hlt
        exact hlt
      rw [List.getElem?_set_self hi] at hv'
      rw [List.getElem?_set_self (by rw [← h.length]; exact hi)] at hs'
      obtain rfl := Option.some.inj hv'
      obtain rfl := Option.some.inj hs'
      exact hv
    · rw [List.getElem?_set_ne hij] at hv' hs'
      exact h.holds hv' hs'

/-- **One operation**: it returns, and its vector gets the set that is meant. -/
theorem AllHold.step (h : AllHold vs ss) {op : VectorOp} (hop : op.Allowed ss.length) (hsmall : op.Countable) :
    ∃ vs', vectorStep vs op = some vs' ∧ AllHold vs' (setStep ss op) := by
  cases op with
  | new =>
      refine ⟨vs ++ [⟨0, []⟩], rfl, h.concat ⟨.new, ⟨rfl, rfl, by decide⟩, ?_⟩⟩
      intro z
      simp
  | copy i =>
      obtain ⟨that, hi, w, htracks, hset⟩ := h.get hop
      obtain ⟨v', hcopy, htracks'⟩ := htracks.copy
      refine ⟨vs ++ [v'], ?_, h.concat ⟨w.copy, htracks', ?_⟩⟩
      · simp [vectorStep, hi, hcopy]
      · intro z
        rw [Bitvector.get_copy]
        exact hset z
  | resize i newSize =>
      obtain ⟨v, hi, w, htracks, hset⟩ := h.get hop.1
      obtain ⟨v', hresize, htracks'⟩ := htracks.resize hsmall
      refine ⟨vs.set i v', by simp [vectorStep, hi, hresize], ?_⟩
      -- the sets stay
      have hsame : ss.set i (ss.getD i ∅) = ss := by
        rw [List.getD_eq_getElem _ _ hop.1, List.set_getElem_self]
      show AllHold (vs.set i v') ss
      rw [← hsame]
      refine h.set ⟨w.resize newSize, htracks', ?_⟩
      intro z
      rw [Bitvector.get_resize]
      exact hset z
  | set i y =>
      obtain ⟨v, hi, w, htracks, hset⟩ := h.get hop.1
      obtain ⟨v', w', hrun, hrun', htracks'⟩ := htracks.set hop.2
      obtain ⟨w₂, hw₂, -, hget⟩ := Bitvector.set_spec (v := w) hop.2
      obtain rfl := Option.some.inj (hrun'.symm.trans hw₂)
      refine ⟨vs.set i v', by simp [vectorStep, hi, hrun], h.set ⟨w', htracks', ?_⟩⟩
      intro z
      rw [hget, Bool.or_eq_true, decide_eq_true_iff, Set.mem_insert_iff, hset, or_comm]

end AllHold

/-- **`bitvector` is a set of numbers** in every run that never asks for `2 ^ 62` blocks. -/
theorem vectors_are_sets {ops : List VectorOp} {ss : List (Set Nat)} (h : VectorRun ops ss)
    (hsmall : ∀ op ∈ ops, op.Countable) : SetsOf ops ss := by
  have hhold : ∃ vs, ops.foldlM vectorStep [] = some vs ∧ AllHold vs ss := by
    induction h with
    | nil => exact ⟨[], rfl, rfl, fun hv => nomatch hv⟩
    | @step ops ss op _ hop ih =>
        obtain ⟨vs, hrun, hhold⟩ := ih fun o ho => hsmall o (List.mem_append_left _ ho)
        obtain ⟨vs', hstep, hhold'⟩ := hhold.step hop
          (hsmall op (List.mem_append_right _ (List.mem_singleton.mpr rfl)))
        exact ⟨vs', by simp [List.foldlM_append, hrun, hstep], hhold'⟩
  obtain ⟨vs, hrun, hhold⟩ := hhold
  refine ⟨vs, hrun, hhold.length, ?_⟩
  intro i v s hv hs z _
  obtain ⟨w, htracks, hset⟩ := hhold.holds hv hs
  exact ⟨w.get z, htracks.get z, hset z⟩

/-- A bit is set, the vector copied, and the copy grown by a bit at the edge of a block. -/
def copiedThenGrown : List VectorOp := [.new, .set 0 31, .copy 0, .set 0 5, .resize 1 3, .set 1 96]

/-- The copy does not see the bit that is set in the first one afterwards. -/
theorem vectors_are_sets_copied : SetsOf copiedThenGrown [{5, 31}, {96, 31}] := by
  have h₁ : VectorRun [.new] [∅] := VectorRun.nil.step trivial
  have h₂ : VectorRun [.new, .set 0 31] [insert 31 ∅] := h₁.step ⟨Nat.one_pos, by decide⟩
  have h₃ : VectorRun [.new, .set 0 31, .copy 0] [insert 31 ∅, insert 31 ∅] := h₂.step Nat.one_pos
  have h₄ : VectorRun [.new, .set 0 31, .copy 0, .set 0 5] [insert 5 (insert 31 ∅), insert 31 ∅] :=
    h₃.step ⟨Nat.two_pos, by decide⟩
  have h₅ : VectorRun [.new, .set 0 31, .copy 0, .set 0 5, .resize 1 3] [insert 5 (insert 31 ∅), insert 31 ∅] :=
    h₄.step ⟨Nat.one_lt_two, by decide⟩
  have h : VectorRun copiedThenGrown [insert 5 (insert 31 ∅), insert 96 (insert 31 ∅)] :=
    h₅.step ⟨Nat.one_lt_two, by decide⟩
  rw [insert_empty_eq] at h
  refine vectors_are_sets h ?_
  intro op hop
  simp only [copiedThenGrown, List.mem_cons, List.not_mem_nil, or_false] at hop
  rcases hop with rfl | rfl | rfl | rfl | rfl | rfl
  all_goals first | trivial | (show 3 < 2 ^ 62; decide)

/-- **The bytes wrap**: `2 ^ 62` blocks are no bytes at all, so nothing is there to be read. -/
theorem wrapped_resize : ∃ ss, VectorRun [.new, .resize 0 (2 ^ 62)] ss ∧ ¬SetsOf [.new, .resize 0 (2 ^ 62)] ss := by
  have hnew : VectorRun [.new] [∅] := VectorRun.nil.step trivial
  have hresize : VectorRun [.new, .resize 0 (2 ^ 62)] [∅] := hnew.step ⟨Nat.one_pos, by decide⟩
  refine ⟨[∅], hresize, ?_⟩
  rintro ⟨vs, hrun, -, hget⟩
  have hwrapped : [VectorOp.new, .resize 0 (2 ^ 62)].foldlM vectorStep [] = some [⟨2 ^ 62, []⟩] := by decide +kernel
  obtain rfl := Option.some.inj (hrun.symm.trans hwrapped)
  obtain ⟨answer, hanswer, -⟩ := hget 0 ⟨2 ^ 62, []⟩ ∅ rfl rfl 0 (by decide)
  have hnone : RawVector.get ⟨2 ^ 62, []⟩ 0 = none := by decide +kernel
  rw [hnone] at hanswer
  cases hanswer

end FOrder.Futurerd
