import FOrder.Lib.Loop
import FOrder.Lib.Memory
import Mathlib.Algebra.Group.Nat.Defs

/-!
# `Futurerd.Bitsums` — the compressed bit set

`bitsums` keeps a set of numbers as the places where it begins and stops: runs of zeros and runs of ones in turn. This
is the code, with its memory and its 32-bit indices; every loop is run with fuel. Memory never runs out, and what does
not fit in it has no size either: sizes are not reduced.
-/

namespace FOrder.Futurerd

/-- Why a call does not return. -/
inductive Stop where
  | assertion
  /-- A write outside the buffer. -/
  | overrun
  /-- A read outside the buffer, or of an entry that has never been written. -/
  | read
  /-- Still running when there is no fuel left. -/
  | running
  deriving DecidableEq, Repr

def check (p : Prop) [Decidable p] : Except Stop Unit := if p then .ok () else .error .assertion

theorem check_of {p : Prop} [Decidable p] (h : p) : check p = .ok () := if_pos h

/-- An `index_t`, or an `unsigned int`, that is counted on. -/
def after (i n : Nat) : Nat := (i + n) % 2 ^ 32

def before (i : Nat) : Nat := (i + 2 ^ 32 - 1) % 2 ^ 32

/-- `memcpy`, of `n` entries. -/
def memcpy (dst : Cells Nat) (i : Nat) (src : Cells Nat) (j n : Nat) : Except Stop (Cells Nat) :=
  if dst.length < i + n then .error .overrun
  else
    match dst.copy i src j n with
    | some data => .ok data
    | none => .error .read

/-- `bitsums`; `cap` is the length of its memory. -/
structure Bitsums where
  data : Cells Nat
  size : Nat
  deriving DecidableEq

namespace Bitsums

def cap (b : Bitsums) : Nat := b.data.length

/-- `data[i]`. -/
def entry (b : Bitsums) (i : Nat) : Except Stop Nat :=
  match b.data.read i with
  | some v => .ok v
  | none => .error .read

/-- `data[size - 1]`; when there are no entries that is outside any memory. -/
def last (b : Bitsums) : Except Stop Nat := if b.size = 0 then .error .read else b.entry (b.size - 1)

/-- `data[i] = v`. -/
def put (b : Bitsums) (i v : Nat) : Except Stop Bitsums :=
  match b.data.write i v with
  | some data => .ok { b with data := data }
  | none => .error .overrun

/-- `resize`. -/
def resize (b : Bitsums) (newCap : Nat) : Except Stop Bitsums :=
  if newCap ≤ b.cap then .ok b
  else do
    let newData ← memcpy (Cells.fresh newCap) 0 b.data 0 b.size
    return { b with data := newData }

/-! ## `get` -/

/-- The binary search of `find`, between `l` and `r`. -/
def search (b : Bitsums) (x : Nat) : Nat → Nat → Nat → Except Stop Nat
  | 0, _, _ => .error .running
  | fuel + 1, l, r =>
      if l ≤ r then do
        let m := l + (r - l) / 2
        let v ← b.entry m
        if x < v then b.search x fuel l m
        else do
          let w ← b.entry (after m 1)
          if x < w then return after m 1
          else b.search x fuel m r
      else .error .assertion

/-- `find`. -/
def find (fuel : Nat) (b : Bitsums) (x : Nat) : Except Stop Nat := do
  let first ← b.entry 0
  if x < first then return 0
  else b.search x fuel 0 (b.size % 2 ^ 32)

/-- `get`. -/
def get (fuel : Nat) (b : Bitsums) (x : Nat) : Except Stop Bool := do
  let last ← b.last
  if last ≤ x then return false
  else do
    let index ← b.find fuel x
    return if index % 2 = 0 then false else true

/-! ## `merge` -/

/-- `ai+1 < a.size && a.data[ai+1] <= b.data[bi]`. -/
def spans (a b : Bitsums) (ai bi : Nat) : Except Stop Bool :=
  if after ai 1 < a.size then do
    let p ← a.entry (after ai 1)
    let q ← b.entry bi
    return p ≤ q
  else return false

/-- `o.data[oi++] = a.data[ai++]`, two times. -/
def takeTwo (a o : Bitsums) (ai oi : Nat) : Except Stop Bitsums := do
  let p ← a.entry ai
  let o ← o.put oi p
  let q ← a.entry (after ai 1)
  o.put (after oi 1) q

/-- The start of two runs of ones that overlap, unless they have no stop. -/
def least (a b : Bitsums) (ai bi : Nat) : Except Stop Nat := do
  let p ← a.entry ai
  let q ← b.entry bi
  if p < q then
    if ai = a.size - 1 then return q
    else return p
  else
    if bi = b.size - 1 then return p
    else return q

/-- Where the loop of `merge` is. -/
structure MergeState where
  ai : Nat
  bi : Nat
  oi : Nat
  isCountingZero : Bool
  o : Bitsums

/-- The counting-zero case. -/
def zeroStep (a b : Bitsums) (s : MergeState) : Except Stop MergeState := do
  check (s.ai % 2 = 0 ∧ s.bi % 2 = 0 ∧ s.oi % 2 = 0)
  let spansA ← spans a b s.ai s.bi
  if spansA then
    let o ← takeTwo a s.o s.ai s.oi
    return { s with ai := after s.ai 2, oi := after s.oi 2, o := o }
  else
    let spansB ← spans b a s.bi s.ai
    if spansB then
      let o ← takeTwo b s.o s.bi s.oi
      return { s with bi := after s.bi 2, oi := after s.oi 2, o := o }
    else
      let v ← least a b s.ai s.bi
      let o ← s.o.put s.oi v
      return ⟨after s.ai 1, after s.bi 1, after s.oi 1, false, o⟩

/-- The counting-one case. -/
def oneStep (a b : Bitsums) (s : MergeState) : Except Stop MergeState := do
  check (s.ai % 2 = 1 ∧ s.bi % 2 = 1 ∧ s.oi % 2 = 1)
  let spansA ← spans a b s.ai s.bi
  if spansA then return { s with ai := after s.ai 2 }
  else
    let spansB ← spans b a s.bi s.ai
    if spansB then return { s with bi := after s.bi 2 }
    else
      let p ← a.entry s.ai
      let q ← b.entry s.bi
      let o ← s.o.put s.oi (max p q)
      return ⟨after s.ai 1, after s.bi 1, after s.oi 1, true, o⟩

/-- The loop's condition. -/
def bothLeft (a b : Bitsums) (s : MergeState) : Bool := s.ai < a.size && s.bi < b.size

/-- The loop's body. -/
def mergeStep (a b : Bitsums) (s : MergeState) : Except Stop MergeState :=
  if s.isCountingZero then zeroStep a b s else oneStep a b s

/-- `take_from`: what is left of `o`, from `from` on. -/
def takeFrom (b o : Bitsums) (start : Nat) : Except Stop Bitsums := do
  check (start < o.size)
  check (b.size % 2 = start % 2)
  let p ← b.last
  let q ← o.entry start
  check (p ≤ q)
  let b ← b.resize (b.size + (o.size - start))
  let data ← memcpy b.data b.size o.data start (o.size - start)
  return ⟨data, b.size + (o.size - start)⟩

/-- Where the loop of `squish` is. -/
structure SquishState where
  curr : Nat
  i : Nat
  b : Bitsums

/-- The body of `squish`'s loop: the entry at `i`, and the one before it, are kept unless they are the same. -/
def squishStep (s : SquishState) : Except Stop SquishState := do
  let p ← s.b.entry (before s.i)
  let q ← s.b.entry s.i
  if p < q then
    let b ← s.b.put (before s.curr) p
    let q ← b.entry s.i
    let b ← b.put s.curr q
    return ⟨after s.curr 2, after s.i 2, b⟩
  else return { s with i := after s.i 2 }

/-- `squish`. -/
def squish (fuel : Nat) (b : Bitsums) : Except Stop Bitsums := do
  check (b.size % 2 ^ 32 % 2 = 0)
  let s ← loop .running (fun s : SquishState => s.i < s.b.size) squishStep fuel ⟨2, 2, b⟩
  let p ← s.b.last
  let b ← s.b.put (before s.curr) p
  return { b with size := s.curr }

/-- The body of `validate`'s loop. -/
def validateStep (b : Bitsums) (i : Nat) : Except Stop Nat := do
  let p ← b.entry (before i)
  let q ← b.entry i
  check (p < q)
  return after i 1

/-- `validate`. -/
def validate (fuel : Nat) (b : Bitsums) : Except Stop Unit := do
  let _ ← loop .running (fun i : Nat => i < b.size) b.validateStep fuel 1

/-- What is left of one input is copied over. -/
def copyLeftOver (a b : Bitsums) (s : MergeState) : Except Stop Bitsums :=
  let o : Bitsums := { s.o with size := s.oi }
  if s.ai < a.size then o.takeFrom a s.ai
  else if s.bi < b.size then o.takeFrom b s.bi
  else .ok o

/-- `merge(a, b, o)`. -/
def merge (fuel : Nat) (a b o : Bitsums) : Except Stop Bitsums := do
  let o ← o.resize (max a.size b.size)
  check (o.size = 0)
  let s ← loop .running (bothLeft a b) (mergeStep a b) fuel ⟨0, 0, 0, true, o⟩
  let o ← copyLeftOver a b s
  let o ← o.squish fuel
  o.validate fuel
  return o

/-! ## What the entries mean -/

/-- The entries in use. -/
structure Holds (b : Bitsums) (xs : List Nat) : Prop where
  size : b.size = xs.length
  entries : ∀ {i v : Nat}, xs[i]? = some v → b.data.read i = some v

/-- Starts and stops in turn: as many of the one as of the other, and they go up. -/
structure Alternating (xs : List Nat) : Prop where
  even : xs.length % 2 = 0
  increasing : xs.Pairwise (· < ·)

/-- The entries of a set: there are some. -/
structure Valid (xs : List Nat) : Prop extends Alternating xs where
  nonempty : xs ≠ []

/-- The numbers of a set: from a start on, before its stop. -/
def Denotes (xs : List Nat) (x : Nat) : Prop :=
  ∃ i p q, xs[2 * i]? = some p ∧ xs[2 * i + 1]? = some q ∧ p ≤ x ∧ x < q

section Holds

variable {b : Bitsums} {xs : List Nat} {i j v w : Nat}

theorem Holds.entry (h : b.Holds xs) (hi : xs[i]? = some v) : b.entry i = .ok v := by
  unfold Bitsums.entry
  rw [h.entries hi]

theorem Holds.length_le (h : b.Holds xs) : xs.length ≤ b.cap := by
  refine Nat.le_of_not_lt ?_
  intro hlt
  have hi := List.getElem?_eq_getElem hlt
  have hread := h.entries hi
  rw [Cells.read_of_length_le (show b.data.length ≤ b.cap from Nat.le_refl _)] at hread
  cases hread

theorem Holds.last (h : b.Holds xs) (hv : xs.getLast? = some v) : b.last = .ok v := by
  rw [List.getLast?_eq_getElem?] at hv
  have hpos : xs.length - 1 < xs.length := (List.getElem?_eq_some_iff.mp hv).1
  unfold Bitsums.last
  rw [if_neg (by rw [h.size]; omega), h.size]
  exact h.entry hv

/-- A set has one list of entries. -/
theorem Holds.unique {ys : List Nat} (h : b.Holds xs) (h' : b.Holds ys) : xs = ys := by
  have hlen : xs.length = ys.length := h.size.symm.trans h'.size
  refine List.ext_getElem hlen ?_
  intro i hi hi'
  have hread := h.entries (List.getElem?_eq_getElem hi)
  rw [h'.entries (List.getElem?_eq_getElem hi')] at hread
  exact (Option.some.inj hread).symm

theorem getElem?_lt (h : xs.Pairwise (· < ·)) (hi : xs[i]? = some v) (hj : xs[j]? = some w) (hij : i < j) : v < w := by
  obtain ⟨hi', rfl⟩ := List.getElem?_eq_some_iff.mp hi
  obtain ⟨hj', rfl⟩ := List.getElem?_eq_some_iff.mp hj
  exact List.pairwise_iff_getElem.mp h i j hi' hj' hij

theorem getElem?_le (h : xs.Pairwise (· < ·)) (hi : xs[i]? = some v) (hj : xs[j]? = some w) (hij : i ≤ j) : v ≤ w := by
  rcases Nat.lt_or_eq_of_le hij with hlt | rfl
  · exact Nat.le_of_lt (getElem?_lt h hi hj hlt)
  · exact Nat.le_of_eq (Option.some.inj (hi.symm.trans hj))

/-- The number between two entries is in the set when the first of them is a start. -/
theorem denotes_between (h : xs.Pairwise (· < ·)) {x : Nat} (hi : xs[i]? = some v) (hi' : xs[i + 1]? = some w)
    (hv : v ≤ x) (hw : x < w) : Denotes xs x ↔ i % 2 = 0 := by
  constructor
  · rintro ⟨k, p, q, hp, hq, hpx, hxq⟩
    -- the entries around `x` are the only ones
    have hle : ¬i + 1 ≤ 2 * k := fun hle => Nat.not_lt_of_le hpx (Nat.lt_of_lt_of_le hw (getElem?_le h hi' hp hle))
    have hge : ¬2 * k + 1 ≤ i := fun hge => Nat.not_lt_of_le (Nat.le_trans (getElem?_le h hq hi hge) hv) hxq
    omega
  · intro heven
    obtain ⟨k, rfl⟩ : ∃ k, i = 2 * k := ⟨i / 2, by omega⟩
    exact ⟨k, v, w, hi, hi', hv, hw⟩

end Holds

end Bitsums
end FOrder.Futurerd
