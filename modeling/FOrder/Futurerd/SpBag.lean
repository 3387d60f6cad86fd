import FOrder.Lib.UnionFind

/-!
# `Futurerd.SpBag` — S and P bags

`spbag.cpp`: a bag is a union-find node with a kind. All bags of a run live in one forest, a bag is known by
its number. Only the kind of a root is ever read by a query, and `merge` keeps the kind of the bag merged
into. A failed assertion or a null pointer is `none`.
-/

namespace FOrder.Futurerd

/-- `spbag::bag_kind`. -/
inductive BagKind where
  | S
  | P
  deriving DecidableEq

/-- All `spbag` objects: the union-find nodes and their `kind` fields. -/
structure Bags where
  parent : List Nat
  kind : List BagKind
  deriving DecidableEq

namespace Bags

/-- Before the first bag. -/
def empty : Bags := ⟨[], []⟩

/-- `new spbag(k)`. -/
def new (m : Bags) (k : BagKind) : Bags × Nat := (⟨UF.add m.parent, m.kind ++ [k]⟩, m.parent.length)

/-- `spbag::find`. -/
def find (m : Bags) (x : Nat) : Option (Bags × Nat) := do
  let (parent, root) ← UF.find m.parent x
  some ({ m with parent := parent }, root)

/-- `spbag::set_kind`. -/
def setKind (m : Bags) (x : Nat) (k : BagKind) : Bags := { m with kind := m.kind.set x k }

/-- `this->merge(that)`. -/
def merge (m : Bags) (this that : Nat) : Option Bags := do
  let (parent, root) ← UF.merge m.parent this that
  let m := { m with parent := parent }
  if root ≠ this then
    let (m, r) ← m.find that
    if root = r then
      let k ← m.kind[this]?
      some (m.setKind root k)
    else none
  else some m

/-- `spbag::precedes_now`: is the root an S bag? -/
def precedesNow (m : Bags) (x : Nat) : Option (Bags × Bool) := do
  let (m, root) ← m.find x
  let k ← m.kind[root]?
  some (m, k = .S)

/-! ## Representatives and kinds -/

/-- A kind for each node, and parents that lead to a root. -/
structure WF (m : Bags) : Prop where
  forest : UF.WF m.parent
  kinds : m.kind.length = m.parent.length

/-- How many bags have been made. -/
def size (m : Bags) : Nat := m.parent.length

/-- The root of a bag. -/
def rep (m : Bags) (x : Nat) : Nat := UF.rep m.parent x

variable {m : Bags}

/-- The root of a bag is a bag. -/
theorem WF.rep_lt (hm : m.WF) {x : Nat} (hx : x < m.size) : m.rep x < m.size :=
  hm.forest.rep_lt hx

/-- Every bag has a kind field. -/
theorem WF.exists_kind (hm : m.WF) {x : Nat} (hx : x < m.size) : ∃ k, m.kind[x]? = some k :=
  ⟨_, List.getElem?_eq_getElem (by rw [hm.kinds]; exact hx)⟩

/-- A new bag is a root of its kind, and the others are as before. -/
theorem new_spec (hm : m.WF) (k : BagKind) :
    (m.new k).1.WF ∧ (m.new k).1.size = m.size + 1 ∧ (m.new k).2 = m.size ∧
      (∀ x, (m.new k).1.rep x = m.rep x) ∧ m.rep m.size = m.size ∧
      (∀ x, x < m.size → (m.new k).1.kind[x]? = m.kind[x]?) ∧ (m.new k).1.kind[m.size]? = some k := by
  obtain ⟨hwf, hlen, hrep, hself⟩ := UF.add_spec hm.forest
  refine ⟨⟨hwf, ?_⟩, hlen, rfl, hrep, ?_, ?_, ?_⟩
  · show (m.kind ++ [k]).length = (UF.add m.parent).length
    rw [hlen, List.length_append, hm.kinds]
    rfl
  · rw [hrep] at hself
    exact hself
  · intro x hx
    exact List.getElem?_append_left (by rw [hm.kinds]; exact hx)
  · show (m.kind ++ [k])[m.parent.length]? = some k
    rw [← hm.kinds]
    simp

/-- The same bags: paths to the roots may be shorter. -/
structure Same (m m' : Bags) : Prop where
  wf : m'.WF
  size : m'.size = m.size
  rep : ∀ z, m'.rep z = m.rep z
  kind : m'.kind = m.kind

/-- `find` returns the root, and changes paths only. -/
theorem find_spec (hm : m.WF) {x : Nat} (hx : x < m.size) :
    ∃ m', m.find x = some (m', m.rep x) ∧ m.Same m' := by
  obtain ⟨p, hp, hsame⟩ := UF.find_spec hm.forest hx
  refine ⟨{ m with parent := p }, by simp [find, hp, rep], ⟨hsame.wf, ?_⟩, hsame.length, hsame.rep, rfl⟩
  show m.kind.length = p.length
  rw [hm.kinds, hsame.length]

/-- Setting a kind moves no bag. -/
theorem setKind_spec (hm : m.WF) {x : Nat} (hx : x < m.size) (k : BagKind) :
    (m.setKind x k).WF ∧ (m.setKind x k).size = m.size ∧ (∀ z, (m.setKind x k).rep z = m.rep z) ∧
      (∀ y, y ≠ x → (m.setKind x k).kind[y]? = m.kind[y]?) ∧ (m.setKind x k).kind[x]? = some k := by
  refine ⟨⟨hm.forest, ?_⟩, rfl, fun _ => rfl, ?_, ?_⟩
  · show (m.kind.set x k).length = m.parent.length
    rw [List.length_set, hm.kinds]
  · intro y hy
    exact List.getElem?_set_ne (fun h => hy h.symm)
  · show (m.kind.set x k)[x]? = some k
    rw [List.getElem?_set_self (by rw [hm.kinds]; exact hx)]

/-- **`merge`** puts the bag of `that` under the root of `this`, with the kind that `this` itself holds. -/
theorem merge_spec (hm : m.WF) {this that : Nat} (hx : this < m.size) (hy : that < m.size) :
    ∃ m', m.merge this that = some m' ∧ m'.WF ∧ m'.size = m.size ∧
      (∀ z, m'.rep z = if m.rep z = m.rep that then m.rep this else m.rep z) ∧
      (∀ y, y ≠ m.rep this → m'.kind[y]? = m.kind[y]?) ∧
      m'.kind[m.rep this]? = m.kind[this]? := by
  obtain ⟨p, hp, hwf, hlen, hrep⟩ := UF.merge_spec hm.forest hx hy
  have hm₁ : WF { m with parent := p } := ⟨hwf, by rw [hm.kinds, hlen]⟩
  by_cases hroot : m.rep this = this
  · refine ⟨{ m with parent := p }, ?_, hm₁, hlen, hrep, fun _ _ => rfl, ?_⟩
    · have hne : UF.rep m.parent this = this := hroot
      simp [merge, hp, hne]
    · rw [hroot]
  · obtain ⟨m₂, hfind, ⟨hm₂, hsize₂, hrep₂, hkind₂⟩⟩ := find_spec hm₁ (show that < p.length by rw [hlen]; exact hy)
    have hthat : rep { m with parent := p } that = m.rep this := by
      show UF.rep p that = _
      rw [hrep, if_pos rfl]
      rfl
    obtain ⟨k, hk⟩ := hm.exists_kind hx
    have hlt : m.rep this < m₂.size := by
      rw [hsize₂]
      show m.rep this < p.length
      rw [hlen]
      exact hm.rep_lt hx
    obtain ⟨hwf₃, hsize₃, hrep₃, hother₃, hself₃⟩ := setKind_spec hm₂ hlt k
    refine ⟨m₂.setKind (m.rep this) k, ?_, hwf₃, ?_, ?_, ?_, ?_⟩
    · have hne : UF.rep m.parent this ≠ this := hroot
      rw [hthat] at hfind
      have hk₂ : m₂.kind[this]? = some k := by
        rw [hkind₂]
        exact hk
      simp [merge, hp, hne, hfind, hk₂, rep]
    · rw [hsize₃, hsize₂]
      exact hlen
    · intro z
      rw [hrep₃, hrep₂]
      exact hrep z
    · intro y hy
      rw [hother₃ y hy, hkind₂]
    · rw [hself₃, hk]

/-- The answer is the kind of the root. -/
theorem precedesNow_spec (hm : m.WF) {x : Nat} (hx : x < m.size) {k : BagKind}
    (hk : m.kind[m.rep x]? = some k) :
    ∃ m', m.precedesNow x = some (m', decide (k = .S)) ∧ m.Same m' := by
  obtain ⟨m', hfind, hsame⟩ := find_spec hm hx
  refine ⟨m', ?_, hsame⟩
  rw [← hsame.kind] at hk
  simp [precedesNow, hfind, hk]

end Bags
end FOrder.Futurerd
