import Mathlib.Data.Finset.Card
import Mathlib.Data.Finset.Range
import Mathlib.Tactic.Common

/-!
# `Lib.UnionFind` — parent-pointer forests with path compression and one-sided links

A forest is a list of parent pointers; a root is its own parent. `find` compresses the path it walks and
`merge x y` always links the root of `y` under the root of `x`, without ranks. The abstract view is the
representative of each element: `find` leaves it alone and `merge` moves one class to one representative.

The proofs go through `RootIn`, the walk to the root as an inductive relation with its length. There are two kinds
of pointer writes, to the root of the own class (`RootIn.compress`) and of a root to another root (`RootIn.link`),
and one lemma says what each does to all walks. `find_spec` and `merge_spec` follow from these; a client needs the
two, `add_spec`, and `WF`.
-/

namespace FOrder.UF

/-- The parent of `x`; an element outside the forest is its own parent. -/
def parentOf (p : List Nat) (x : Nat) : Nat := p.getD x x

/-- `find`, with the depth of the recursion bounded by `fuel`: the new forest and the root. -/
def findAux : Nat → List Nat → Nat → Option (List Nat × Nat)
  | 0, _, _ => none
  | fuel + 1, p, x =>
      if parentOf p x ≠ x then do
        let (p', r) ← findAux fuel p (parentOf p x)
        some (p'.set x r, r)
      else some (p, parentOf p x)

/-- A path to the root visits an element at most once. -/
def find (p : List Nat) (x : Nat) : Option (List Nat × Nat) := findAux (p.length + 1) p x

/-- `link(x, y)`: `y` becomes a child of `x`. -/
def link (p : List Nat) (x y : Nat) : List Nat × Nat := (p.set y x, x)

/-- `merge(x, y) = link(find(x), find(y))`. -/
def merge (p : List Nat) (x y : Nat) : Option (List Nat × Nat) := do
  let (p₁, rx) ← find p x
  let (p₂, ry) ← find p₁ y
  some (link p₂ rx ry)

/-- A new element is its own root; its number is the size so far. -/
def add (p : List Nat) : List Nat := p ++ [p.length]

/-! ## Roots

The root of an element is reached along the parent pointers; there is at most one. In a well-formed forest every
element has a root, and `rep` is the function that gives it, by as many steps as the forest has elements. -/

/-- The root of `x` is `r`, after `n` steps. -/
inductive RootIn (p : List Nat) : Nat → Nat → Nat → Prop where
  | root {x} : parentOf p x = x → RootIn p 0 x x
  | step {n x r} : parentOf p x ≠ x → RootIn p n (parentOf p x) r → RootIn p (n + 1) x r

/-- Every element has a root, and pointers stay inside the forest. -/
structure WF (p : List Nat) : Prop where
  bound : ∀ x, x < p.length → parentOf p x < p.length
  rooted : ∀ x, ∃ n r, RootIn p n x r

/-- The representative of `x`. -/
def rep (p : List Nat) (x : Nat) : Nat := (parentOf p)^[p.length] x

/-- `merge` without the path compression of its `find`s. -/
def union (p : List Nat) (x y : Nat) : List Nat := p.set (rep p y) (rep p x)

/-- An element has one root, at one distance: each step follows the one pointer there is. -/
theorem RootIn.det {p : List Nat} {n m x r s : Nat} (h : RootIn p n x r) (h' : RootIn p m x s) :
    n = m ∧ r = s := by
  induction h generalizing m s with
  | root hx =>
      cases h' with
      | root => exact ⟨rfl, rfl⟩
      | step hn => exact absurd hx hn
  | step hn _ ih =>
      cases h' with
      | root hx => exact absurd hx hn
      | step _ h' =>
          obtain ⟨rfl, rfl⟩ := ih h'
          exact ⟨rfl, rfl⟩

/-- A walk ends at a root. -/
theorem RootIn.isRoot {p : List Nat} {n x r : Nat} (h : RootIn p n x r) : parentOf p r = r := by
  induction h with
  | root hx => exact hx
  | step _ _ ih => exact ih

/-- Elements outside the forest are roots, which makes `parentOf` total. -/
theorem parentOf_of_length_le {p : List Nat} {x : Nat} (hx : p.length ≤ x) : parentOf p x = x := by
  simp [parentOf, List.getElem?_eq_none hx]

/-- The elements on the way have the same root, each as far from it as is left to go. -/
theorem RootIn.iterate {p : List Nat} {n x r : Nat} (h : RootIn p n x r) :
    ∀ k, k ≤ n → RootIn p (n - k) ((parentOf p)^[k] x) r := by
  induction h with
  | root hx =>
      intro k hk
      obtain rfl : k = 0 := by omega
      exact RootIn.root hx
  | @step n x r hn hr ih =>
      intro k hk
      cases k with
      | zero => exact RootIn.step hn hr
      | succ k =>
          rw [Function.iterate_succ_apply, Nat.add_sub_add_right]
          exact ih k (by omega)

/-- The path to a root is no longer than the forest: its inner elements are distinct. -/
theorem RootIn.le_length {p : List Nat} {n x r : Nat} (h : RootIn p n x r) : n ≤ p.length := by
  have hmaps : ∀ k ∈ Finset.range n, (parentOf p)^[k] x ∈ Finset.range p.length := by
    intro k hk
    rw [Finset.mem_range] at hk ⊢
    have hr := h.iterate k (by omega)
    by_contra hlen
    -- an element outside the forest is a root, with no steps left
    have hout := parentOf_of_length_le (Nat.le_of_not_lt hlen)
    have hzero := (hr.det (RootIn.root hout)).1
    omega
  have hinj : ∀ i ∈ Finset.range n, ∀ j ∈ Finset.range n,
      (parentOf p)^[i] x = (parentOf p)^[j] x → i = j := by
    intro i hi j hj heq
    rw [Finset.mem_range] at hi hj
    have hri := h.iterate i (by omega)
    rw [heq] at hri
    have hsteps := (hri.det (h.iterate j (by omega))).1
    omega
  have hcard := Finset.card_le_card_of_injOn _ hmaps hinj
  simpa using hcard

/-- The representative is the root: as many steps as the forest has elements are enough, and a root stays where it
    is. -/
theorem RootIn.rep_eq {p : List Nat} {n x r : Nat} (h : RootIn p n x r) : rep p x = r := by
  have hle := h.le_length
  have hstop : (parentOf p)^[n] x = r := by
    have hend := h.iterate n (Nat.le_refl n)
    rw [Nat.sub_self] at hend
    cases hend
    rfl
  unfold rep
  rw [← Nat.sub_add_cancel hle, Function.iterate_add_apply, hstop]
  exact Function.iterate_fixed h.isRoot _

/-- In a well-formed forest every walk ends at the representative. -/
theorem WF.rootIn_rep {p : List Nat} (hp : WF p) (x : Nat) : ∃ n, RootIn p n x (rep p x) := by
  obtain ⟨n, r, hr⟩ := hp.rooted x
  exact ⟨n, hr.rep_eq ▸ hr⟩

/-- A representative is a root. -/
theorem WF.parentOf_rep {p : List Nat} (hp : WF p) (x : Nat) : parentOf p (rep p x) = rep p x := by
  obtain ⟨n, hr⟩ := hp.rootIn_rep x
  exact hr.isRoot

/-- A representative is its own. -/
theorem WF.rep_rep {p : List Nat} (hp : WF p) (x : Nat) : rep p (rep p x) = rep p x :=
  (RootIn.root (hp.parentOf_rep x)).rep_eq

/-- The representative of an element of the forest is in the forest. -/
theorem WF.rep_lt {p : List Nat} (hp : WF p) {x : Nat} (hx : x < p.length) : rep p x < p.length := by
  obtain ⟨n, hr⟩ := hp.rootIn_rep x
  generalize rep p x = r at hr ⊢
  induction hr with
  | root _ => exact hx
  | step _ _ ih => exact ih (hp.bound _ hx)

/-- A root is its own representative. -/
theorem rep_of_isRoot {p : List Nat} {x : Nat} (hx : parentOf p x = x) : rep p x = x :=
  (RootIn.root hx).rep_eq

/-! ## Updates of one pointer

All operations write pointers one at a time. A pointer may be moved to the root of its class, which changes no root,
or that of a root to another root, which moves one class. -/

/-- One pointer is written, and no other changes. -/
theorem parentOf_set {p : List Nat} {y v : Nat} (hy : y < p.length) (x : Nat) :
    parentOf (p.set y v) x = if x = y then v else parentOf p x := by
  unfold parentOf
  by_cases hxy : x = y
  · subst hxy
    simp [hy]
  · rw [if_neg hxy, List.getD_eq_getElem?_getD, List.getElem?_set_ne (fun h => hxy h.symm),
      List.getD_eq_getElem?_getD]

/-- Pointing an element at the root of its class keeps every root. -/
theorem RootIn.compress {p : List Nat} {n x r : Nat} (hx : RootIn p n x r) (hlt : x < p.length)
    {m y s : Nat} (hy : RootIn p m y s) : ∃ k, RootIn (p.set x r) k y s := by
  -- the root of `x` stays a root
  have hroot : parentOf (p.set x r) r = r := by
    rw [parentOf_set hlt]
    split
    · rfl
    · exact hx.isRoot
  induction hy with
  | @root y hyr =>
      refine ⟨0, RootIn.root ?_⟩
      rw [parentOf_set hlt]
      split
      · rename_i hyx
        subst hyx
        exact (hx.det (RootIn.root hyr)).2
      · exact hyr
  | @step m y s hyn hys ih =>
      obtain ⟨k, hk⟩ := ih
      by_cases hyx : y = x
      · subst hyx
        obtain rfl : r = s := (hx.det (RootIn.step hyn hys)).2
        have hne : r ≠ y := by
          rintro rfl
          exact hyn hx.isRoot
        refine ⟨1, RootIn.step ?_ ?_⟩
        · rw [parentOf_set hlt, if_pos rfl]
          exact hne
        · rw [parentOf_set hlt, if_pos rfl]
          exact RootIn.root hroot
      · refine ⟨k + 1, RootIn.step ?_ ?_⟩
        · rw [parentOf_set hlt, if_neg hyx]
          exact hyn
        · rw [parentOf_set hlt, if_neg hyx]
          exact hk

/-- Linking the root `b` under the root `a` moves the class of `b`. -/
theorem RootIn.link {p : List Nat} {a b : Nat} (ha : parentOf p a = a) (hb : parentOf p b = b)
    (hlt : b < p.length) {n x r : Nat} (hx : RootIn p n x r) :
    ∃ k, RootIn (p.set b a) k x (if r = b then a else r) := by
  have hroot : parentOf (p.set b a) a = a := by
    rw [parentOf_set hlt]
    split
    · rfl
    · exact ha
  induction hx with
  | @root x hxr =>
      by_cases hxb : x = b
      · subst hxb
        rw [if_pos rfl]
        by_cases hax : a = x
        · subst hax
          exact ⟨0, RootIn.root hroot⟩
        · refine ⟨1, RootIn.step ?_ ?_⟩
          · rw [parentOf_set hlt, if_pos rfl]
            exact hax
          · rw [parentOf_set hlt, if_pos rfl]
            exact RootIn.root hroot
      · rw [if_neg hxb]
        refine ⟨0, RootIn.root ?_⟩
        rw [parentOf_set hlt, if_neg hxb]
        exact hxr
  | @step n x r hxn _ ih =>
      obtain ⟨k, hk⟩ := ih
      have hxb : x ≠ b := by
        rintro rfl
        exact hxn hb
      refine ⟨k + 1, RootIn.step ?_ ?_⟩
      · rw [parentOf_set hlt, if_neg hxb]
        exact hxn
      · rw [parentOf_set hlt, if_neg hxb]
        exact hk

/-- After a pointer is written only the roots have to be found again. -/
theorem WF.of_set {p : List Nat} (hp : WF p) {y v : Nat} (hy : y < p.length) (hv : v < p.length)
    (hroots : ∀ x, ∃ n r, RootIn (p.set y v) n x r) : WF (p.set y v) where
  bound x hx := by
    rw [List.length_set] at hx ⊢
    rw [parentOf_set hy]
    split
    · exact hv
    · exact hp.bound x hx
  rooted := hroots

/-! ## The operations on representatives

What `find`, `merge` and a new element do to `rep`. `find` writes pointers of the first kind only, so two forests with
the same representatives cannot be told apart by it. -/

/-- The same classes with the same representatives. -/
structure SameReps (p q : List Nat) : Prop where
  wf : WF q
  length : q.length = p.length
  rep : ∀ x, rep q x = rep p x

/-- Nothing was written. -/
theorem SameReps.refl {p : List Nat} (hp : WF p) : SameReps p p := ⟨hp, rfl, fun _ => rfl⟩

/-- One `find` after another. -/
theorem SameReps.trans {p q r : List Nat} (h : SameReps p q) (h' : SameReps q r) : SameReps p r :=
  ⟨h'.wf, h'.length.trans h.length, fun x => (h'.rep x).trans (h.rep x)⟩

/-- Compression of one pointer. -/
theorem WF.sameReps_set {p : List Nat} (hp : WF p) {x : Nat} (hx : x < p.length) :
    SameReps p (p.set x (UF.rep p x)) := by
  have hroots : ∀ y, ∃ n, RootIn (p.set x (UF.rep p x)) n y (UF.rep p y) := by
    intro y
    obtain ⟨n, hn⟩ := hp.rootIn_rep x
    obtain ⟨m, hm⟩ := hp.rootIn_rep y
    exact hn.compress hx hm
  refine ⟨hp.of_set hx (hp.rep_lt hx) ?_, List.length_set, ?_⟩
  · intro y
    obtain ⟨n, hn⟩ := hroots y
    exact ⟨n, _, hn⟩
  · intro y
    obtain ⟨n, hn⟩ := hroots y
    exact hn.rep_eq

/-- `find` with fuel for the walk. By induction on the walk: on the way back each element of it is pointed at the
    root. -/
theorem findAux_spec {p : List Nat} (hp : WF p) {n x r : Nat} (hr : RootIn p n x r)
    (hx : x < p.length) : ∀ fuel, n < fuel →
    ∃ q, findAux fuel p x = some (q, r) ∧ SameReps p q := by
  induction hr with
  | @root x hroot =>
      intro fuel hfuel
      obtain ⟨k, rfl⟩ : ∃ k, fuel = k + 1 := ⟨fuel - 1, by omega⟩
      exact ⟨p, by simp [findAux, hroot], SameReps.refl hp⟩
  | @step n x r hne hr ih =>
      intro fuel hfuel
      obtain ⟨k, rfl⟩ : ∃ k, fuel = k + 1 := ⟨fuel - 1, by omega⟩
      obtain ⟨q, hq, hsame⟩ := ih (hp.bound x hx) k (by omega)
      have hrep : UF.rep q x = r := by
        rw [hsame.rep, (RootIn.step hne hr).rep_eq]
      refine ⟨q.set x r, by simp [findAux, hne, hq], ?_⟩
      rw [← hrep]
      exact hsame.trans (hsame.wf.sameReps_set (by rw [hsame.length]; exact hx))

/-- **`find` returns** the representative, and changes none. -/
theorem find_spec {p : List Nat} (hp : WF p) {x : Nat} (hx : x < p.length) :
    ∃ q, find p x = some (q, rep p x) ∧ SameReps p q := by
  obtain ⟨n, hn⟩ := hp.rootIn_rep x
  exact findAux_spec hp hn hx _ (Nat.lt_succ_of_le hn.le_length)

/-- **`union`** moves the class of `y` to the representative of `x`. -/
theorem union_spec {p : List Nat} (hp : WF p) {x y : Nat} (hx : x < p.length) (hy : y < p.length) :
    WF (union p x y) ∧ (union p x y).length = p.length ∧
      ∀ z, rep (union p x y) z = if rep p z = rep p y then rep p x else rep p z := by
  have hlink : ∀ z, ∃ k, RootIn (union p x y) k z (if rep p z = rep p y then rep p x else rep p z) := by
    intro z
    obtain ⟨n, hn⟩ := hp.rootIn_rep z
    exact hn.link (hp.parentOf_rep x) (hp.parentOf_rep y) (hp.rep_lt hy)
  refine ⟨hp.of_set (hp.rep_lt hy) (hp.rep_lt hx) ?_, List.length_set, ?_⟩
  · intro z
    obtain ⟨k, hk⟩ := hlink z
    exact ⟨k, _, hk⟩
  · intro z
    obtain ⟨k, hk⟩ := hlink z
    exact hk.rep_eq

/-- **`merge` is `union`** with shorter paths. -/
theorem merge_union {p : List Nat} (hp : WF p) {x y : Nat} (hx : x < p.length) (hy : y < p.length) :
    ∃ q, merge p x y = some (q, rep p x) ∧ SameReps (union p x y) q := by
  obtain ⟨p₁, hfx, h₁⟩ := find_spec hp hx
  obtain ⟨p₂, hfy, h₂⟩ := find_spec h₁.wf (x := y) (by rw [h₁.length]; exact hy)
  have h := h₁.trans h₂
  have hx₂ : x < p₂.length := by
    rw [h.length]
    exact hx
  have hy₂ : y < p₂.length := by
    rw [h.length]
    exact hy
  obtain ⟨-, hlen, hrep⟩ := union_spec hp hx hy
  obtain ⟨hwf', hlen', hrep'⟩ := union_spec h.wf hx₂ hy₂
  refine ⟨union p₂ x y, ?_, hwf', ?_, ?_⟩
  · simp [merge, hfx, hfy, h₁.rep, link, union, h.rep]
  · rw [hlen', hlen, h.length]
  · intro z
    rw [hrep, hrep', h.rep, h.rep, h.rep]

/-- **`merge` returns** the representative of `x`, which the class of `y` then has too. -/
theorem merge_spec {p : List Nat} (hp : WF p) {x y : Nat} (hx : x < p.length) (hy : y < p.length) :
    ∃ q, merge p x y = some (q, rep p x) ∧ WF q ∧ q.length = p.length ∧
      ∀ z, rep q z = if rep p z = rep p y then rep p x else rep p z := by
  obtain ⟨q, hq, hsame⟩ := merge_union hp hx hy
  obtain ⟨-, hlen, hrep⟩ := union_spec hp hx hy
  exact ⟨q, hq, hsame.wf, hsame.length.trans hlen, fun z => (hsame.rep z).trans (hrep z)⟩

/-- The empty forest. -/
theorem wf_nil : WF [] where
  bound x hx := absurd hx (Nat.not_lt_zero x)
  rooted x := ⟨0, x, RootIn.root rfl⟩

/-- The new element is its own parent, and that is what it was before. -/
theorem parentOf_add (p : List Nat) (x : Nat) : parentOf (add p) x = parentOf p x := by
  unfold parentOf add
  rcases Nat.lt_trichotomy x p.length with hx | hx | hx
  · simp [List.getElem?_append_left hx]
  · subst hx
    simp
  · have hout : (p ++ [p.length])[x]? = none := by
      apply List.getElem?_eq_none
      rw [List.length_append, List.length_singleton]
      omega
    simp [hout, Nat.le_of_lt hx]

/-- No walk changes. -/
theorem RootIn.add {p : List Nat} {n x r : Nat} (h : RootIn p n x r) : RootIn (add p) n x r := by
  induction h with
  | root hx => exact RootIn.root (by rw [parentOf_add]; exact hx)
  | step hn _ ih =>
      refine RootIn.step ?_ ?_
      · rw [parentOf_add]
        exact hn
      · rw [parentOf_add]
        exact ih

/-- **A new element** is alone in its class. -/
theorem add_spec {p : List Nat} (hp : WF p) :
    WF (add p) ∧ (add p).length = p.length + 1 ∧ (∀ x, rep (add p) x = rep p x) ∧
      rep (add p) p.length = p.length := by
  have hlen : (add p).length = p.length + 1 := by simp [add]
  have hrep : ∀ x, rep (add p) x = rep p x := by
    intro x
    obtain ⟨n, hn⟩ := hp.rootIn_rep x
    exact hn.add.rep_eq
  refine ⟨⟨?_, ?_⟩, hlen, hrep, ?_⟩
  · intro x hx
    rw [parentOf_add, hlen]
    rw [hlen] at hx
    by_cases hlt : x < p.length
    · exact Nat.lt_succ_of_lt (hp.bound x hlt)
    · rw [parentOf_of_length_le (Nat.le_of_not_lt hlt)]
      exact hx
  · intro x
    obtain ⟨n, hn⟩ := hp.rootIn_rep x
    exact ⟨n, _, hn.add⟩
  · rw [hrep]
    exact rep_of_isRoot (parentOf_of_length_le (Nat.le_refl _))

end FOrder.UF
