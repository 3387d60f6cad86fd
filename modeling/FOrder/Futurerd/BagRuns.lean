import FOrder.Futurerd.SpBag
import Mathlib.Logic.Relation

/-!
# `Futurerd.BagRuns` — bags under any sequence of merges

`spbag.cpp` without its callers: bags are created, found, merged and, at a root, given a kind. The forest is the
equivalence that the merges generate. Its kinds are those of the roots only as long as each merge goes into a
bag whose own `kind` field is not stale.
-/

namespace FOrder

/-- **One more pair** in an equivalence that is the kernel of `f`: the class of `y` goes to the value of `x`. -/
theorem eqvGen_merge {α β : Type} [DecidableEq β] {f f' : α → β} {r r' : α → α → Prop} {x y : α}
    (hf : ∀ a b, f a = f b ↔ Relation.EqvGen r a b) (hf' : ∀ a, f' a = if f a = f y then f x else f a)
    (hr : ∀ a b, r' a b ↔ r a b ∨ (a = x ∧ b = y)) (a b : α) : f' a = f' b ↔ Relation.EqvGen r' a b := by
  have hmono : ∀ {a b}, Relation.EqvGen r a b → Relation.EqvGen r' a b :=
    fun h => h.mono fun a b hab => (hr a b).mpr (Or.inl hab)
  have hold : ∀ {a b}, f a = f b → Relation.EqvGen r' a b := fun h => hmono ((hf _ _).mp h)
  have hxy : Relation.EqvGen r' x y := .rel _ _ ((hr x y).mpr (Or.inr ⟨rfl, rfl⟩))
  constructor
  · intro h
    rw [hf', hf'] at h
    split at h <;> split at h
    · rename_i ha hb
      exact hold (ha.trans hb.symm)
    · rename_i ha hb
      exact ((hold ha).trans _ _ _ hxy.symm).trans _ _ _ (hold h)
    · rename_i ha hb
      exact (hold h).trans _ _ _ (hxy.trans _ _ _ (hold hb.symm))
    · exact hold h
  · intro h
    induction h with
    | rel a b hab =>
        rcases (hr a b).mp hab with hab | ⟨rfl, rfl⟩
        · have heq : f a = f b := (hf a b).mpr (.rel a b hab)
          rw [hf', hf', heq]
        · rw [hf', hf', if_pos rfl]
          split <;> rfl
    | refl a => rfl
    | symm a b _ ih => exact ih.symm
    | trans a b c _ _ ih ih' => exact ih.trans ih'

namespace Futurerd.Bags

/-- What happens to the bags: `x.merge(y)` is `merge x y`. -/
inductive Op where
  | new (k : BagKind)
  | find (x : Nat)
  | merge (x y : Nat)
  | setKind (x : Nat) (k : BagKind)
  deriving DecidableEq

/-- One operation on the bags. -/
def op (m : Bags) : Op → Option Bags
  | .new k => some (m.new k).1
  | .find x => (m.find x).map Prod.fst
  | .merge x y => m.merge x y
  | .setKind x k => some (m.setKind x k)

/-- The bags exist, and a kind is set at a root only. -/
def Allowed (m : Bags) : Op → Prop
  | .new _ => True
  | .find x => x < m.size
  | .merge x y => x < m.size ∧ y < m.size
  | .setKind x _ => x < m.size ∧ UF.parentOf m.parent x = x

/-- The bags after a sequence of operations. -/
inductive Run : List Op → Bags → Prop where
  | nil : Run [] .empty
  | step {ops m m' o} (h : Run ops m) (ho : m.Allowed o) (hm : m.op o = some m') : Run (ops ++ [o]) m'

/-- Two bags that the merges so far have put together. -/
def Connected (ops : List Op) : Nat → Nat → Prop := Relation.EqvGen fun x y => .merge x y ∈ ops

/-- The kind that `precedes_now` sees. -/
def shows (m : Bags) (x : Nat) : Option Bool := (m.precedesNow x).map Prod.snd

/-- **The bags are the classes of the merges.** -/
theorem Run.wf {ops : List Op} {m : Bags} (h : Run ops m) :
    m.WF ∧ ∀ a b, m.rep a = m.rep b ↔ Connected ops a b := by
  induction h with
  | nil =>
      refine ⟨⟨UF.wf_nil, rfl⟩, fun a b => ?_⟩
      have hrep : ∀ z, (empty : Bags).rep z = z := fun z => rfl
      rw [hrep, hrep]
      constructor
      · rintro rfl
        exact .refl a
      · intro hab
        induction hab with
        | rel a b hab => simp at hab
        | refl a => rfl
        | symm a b _ ih => exact ih.symm
        | trans a b c _ _ ih ih' => exact ih.trans ih'
  | @step ops m m' o _ ho hm ih =>
      obtain ⟨hwf, hcon⟩ := ih
      -- an operation without a merge keeps the classes
      have hkeep : (∀ x y, o ≠ .merge x y) → m'.WF → (∀ z, m'.rep z = m.rep z) →
          m'.WF ∧ ∀ a b, m'.rep a = m'.rep b ↔ Connected (ops ++ [o]) a b := by
        intro hne hwf' hrep
        refine ⟨hwf', fun a b => ?_⟩
        have hsame : Connected (ops ++ [o]) = Connected ops := by
          unfold Connected
          congr 1
          funext x y
          simp [(hne x y).symm]
        rw [hrep, hrep, hsame]
        exact hcon a b
      cases o with
      | new k =>
          obtain ⟨hwf', -, -, hrep, -⟩ := new_spec hwf k
          obtain rfl := Option.some.inj hm
          exact hkeep (fun x y => by simp) hwf' hrep
      | find x =>
          obtain ⟨m₁, hrun, hsame⟩ := find_spec hwf (show x < m.size from ho)
          rw [Bags.op, hrun] at hm
          obtain rfl := Option.some.inj hm
          exact hkeep (fun x y => by simp) hsame.wf hsame.rep
      | setKind x k =>
          obtain ⟨hwf', -, hrep, -⟩ := setKind_spec hwf (show x < m.size from ho.1) k
          obtain rfl := Option.some.inj hm
          exact hkeep (fun x y => by simp) hwf' hrep
      | merge x y =>
          obtain ⟨m₁, hrun, hwf', -, hrep, -⟩ := merge_spec hwf (show x < m.size from ho.1) (show y < m.size from ho.2)
          rw [Bags.op, hrun] at hm
          obtain rfl := Option.some.inj hm
          exact ⟨hwf', eqvGen_merge hcon hrep (fun a b => by simp)⟩

/-- The kind that is shown is that of the root. -/
theorem shows_eq {m : Bags} (hm : m.WF) {x : Nat} (hx : x < m.size) :
    m.shows x = (m.kind[m.rep x]?).map fun k => decide (k = .S) := by
  obtain ⟨k, hk⟩ := hm.exists_kind (hm.rep_lt hx)
  obtain ⟨m', hrun, -⟩ := precedesNow_spec hm hx hk
  rw [shows, hrun, hk]
  rfl

theorem kind_ext {k k' : BagKind} : decide (k = .S) = decide (k' = .S) ↔ k = k' := by
  cases k <;> cases k' <;> simp

/-- **Merging bags.** After any operations, `find` tells the classes of the merges; and after one more
    `x.merge(y)` the members of the merged bag show what the bag of `x` showed before exactly when the `kind` field
    of `x` itself was that of its root. -/
theorem merge_keeps_kind {ops : List Op} {m : Bags} (h : Run ops m) {x y : Nat} (hx : x < m.size)
    (hy : y < m.size) : (∃ m₁ m₂, m.find x = some (m₁, m.rep x) ∧ m.find y = some (m₂, m.rep y) ∧
        (m.rep x = m.rep y ↔ Connected ops x y)) ∧
      ∃ m', m.merge x y = some m' ∧
        ((∀ z, z < m.size → m'.rep z = m'.rep x → m'.shows z = m.shows x) ↔ m.kind[x]? = m.kind[m.rep x]?) := by
  obtain ⟨hwf, hcon⟩ := h.wf
  obtain ⟨m₁, hfind₁, -⟩ := find_spec hwf hx
  obtain ⟨m₂, hfind₂, -⟩ := find_spec hwf hy
  refine ⟨⟨m₁, m₂, hfind₁, hfind₂, hcon x y⟩, ?_⟩
  obtain ⟨m', hrun, hwf', hsize, hrep, -, hkind⟩ := merge_spec hwf hx hy
  have hrepx : m'.rep x = m.rep x := by
    rw [hrep]
    split <;> rfl
  -- the merged bag has the kind field of `x`
  have hshows : ∀ z, z < m.size → m'.rep z = m'.rep x →
      m'.shows z = (m.kind[x]?).map fun k => decide (k = .S) := by
    intro z hz hzx
    rw [shows_eq hwf' (by rw [hsize]; exact hz), hzx, hrepx, hkind]
  obtain ⟨k, hk⟩ := hwf.exists_kind hx
  obtain ⟨k', hk'⟩ := hwf.exists_kind (hwf.rep_lt hx)
  refine ⟨m', hrun, ?_⟩
  rw [hk, hk', Option.some.injEq, ← kind_ext, ← Option.some.injEq]
  constructor
  · intro hall
    rw [← show m.shows x = some (decide (k' = .S)) by rw [shows_eq hwf hx, hk']; rfl, ← hall x hx rfl,
      hshows x hx rfl, hk]
    rfl
  · intro heq z hz hzx
    rw [hshows z hz hzx, shows_eq hwf hx, hk, hk']
    exact heq

/-- An S bag that takes in a P bag; the third bag is on its own. -/
def staleOps : List Op := [.new .S, .new .P, .merge 0 1, .new .P]

/-- What is reached: `0` and `1` are in one set, and the node of `1` still has a kind of its own. -/
def stale : Bags := ⟨[0, 0, 2], [.S, .P, .P]⟩

/-- The bags of `staleOps`. -/
theorem run_stale : Run staleOps stale := by
  have h₁ : Run [.new .S] ⟨[0], [.S]⟩ := Run.nil.step trivial rfl
  have h₂ : Run [.new .S, .new .P] ⟨[0, 1], [.S, .P]⟩ := h₁.step trivial rfl
  have h₃ : Run [.new .S, .new .P, .merge 0 1] ⟨[0, 0], [.S, .P]⟩ :=
    h₂.step (o := .merge 0 1) ⟨by decide, by decide⟩ rfl
  exact h₃.step trivial rfl

theorem merge_keeps_kind_stale : (∃ m₁ m₂, stale.find 0 = some (m₁, stale.rep 0) ∧
      stale.find 2 = some (m₂, stale.rep 2) ∧ (stale.rep 0 = stale.rep 2 ↔ Connected staleOps 0 2)) ∧
    ∃ m', stale.merge 0 2 = some m' ∧
      ((∀ z, z < stale.size → m'.rep z = m'.rep 0 → m'.shows z = stale.shows 0) ↔
        stale.kind[0]? = stale.kind[stale.rep 0]?) :=
  merge_keeps_kind run_stale (by decide) (by decide)

/-- A merge into the bag at `1`, which is a member of an S bag: the S bag becomes a P bag. -/
theorem merge_stale_kind : ∃ m m', Run staleOps m ∧ 1 < m.size ∧ 2 < m.size ∧ m.merge 1 2 = some m' ∧
    m.shows 1 = some true ∧ m'.shows 1 = some false :=
  ⟨stale, ⟨[0, 0, 0], [.P, .P, .P]⟩, run_stale, by decide, by decide, rfl, rfl, rfl⟩

end Futurerd.Bags
end FOrder
