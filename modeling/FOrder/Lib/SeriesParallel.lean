import Mathlib.Logic.Relation
import FOrder.Lib.TwoOrders

/-!
# `Lib.SeriesParallel` — series-parallel dags and their two orders

A dag is one strand, two dags in series, or two in parallel. The english order goes through parallel parts from left
to right, the hebrew order from right to left; a strand is before another in both exactly when there is a path. Such
a dag has no `N`: four strands with the paths `a → c`, `b → c` and `b → d` and no other comparison.

There are three views of one relation, and each theorem is in the one in which it is easy. `Path` is what the dag
means; `Both` of the two orders is what code can ask; `Prec` is by recursion on how the dag is composed, and
inductions on the dag use it. `path_iff_prec` and `both_iff_prec` connect them.
-/

namespace FOrder

variable {α : Type}

/-- Series-parallel dags over strands. -/
inductive SpDag (α : Type) where
  | strand (x : α)
  | series (d e : SpDag α)
  | parallel (left right : SpDag α)

namespace SpDag

/-- Depth first, the left part first. -/
def english : SpDag α → List α
  | strand x => [x]
  | series d e => d.english ++ e.english
  | parallel d e => d.english ++ e.english

/-- Depth first, the right part first. -/
def hebrew : SpDag α → List α
  | strand x => [x]
  | series d e => d.hebrew ++ e.hebrew
  | parallel d e => e.hebrew ++ d.hebrew

/-- No strand occurs twice. -/
def Proper (d : SpDag α) : Prop := d.english.Nodup

instance [DecidableEq α] (d : SpDag α) : Decidable d.Proper := inferInstanceAs (Decidable d.english.Nodup)

/-! ## Its edges and paths -/

/-- The strands without in-edges. -/
def sources : SpDag α → List α
  | strand x => [x]
  | series d _ => d.sources
  | parallel d e => d.sources ++ e.sources

/-- The strands without out-edges. -/
def sinks : SpDag α → List α
  | strand x => [x]
  | series _ e => e.sinks
  | parallel d e => d.sinks ++ e.sinks

/-- In series, every sink of the first part has an edge to every source of the second. -/
def Edge : SpDag α → α → α → Prop
  | strand _, _, _ => False
  | series d e, x, y => d.Edge x y ∨ (x ∈ d.sinks ∧ y ∈ e.sources) ∨ e.Edge x y
  | parallel d e, x, y => d.Edge x y ∨ e.Edge x y

/-- A path of at least one edge. -/
def Path (d : SpDag α) : α → α → Prop := Relation.TransGen d.Edge

/-- `x` is before `y`: some series composition has `x` in its first and `y` in its second part. -/
def Prec : SpDag α → α → α → Prop
  | strand _, _, _ => False
  | series d e, x, y => d.Prec x y ∨ (x ∈ d.english ∧ y ∈ e.english) ∨ e.Prec x y
  | parallel d e, x, y => d.Prec x y ∨ e.Prec x y

variable {d e : SpDag α} {x y z a b c : α}

/-- Both orders have the strands of the dag. -/
theorem mem_hebrew : x ∈ d.hebrew ↔ x ∈ d.english := by
  induction d with
  | strand y => exact Iff.rfl
  | series d e ihd ihe => rw [hebrew, english, List.mem_append, List.mem_append, ihd, ihe]
  | parallel d e ihd ihe => rw [hebrew, english, List.mem_append, List.mem_append, ihd, ihe, or_comm]

/-- Parts of a proper dag in series are proper, and share no strand. -/
theorem Proper.series (h : (SpDag.series d e).Proper) :
    d.Proper ∧ e.Proper ∧ ∀ x, x ∈ d.english → x ∈ e.english → False := by
  obtain ⟨hd, he, hdis⟩ := List.nodup_append.mp (show (d.english ++ e.english).Nodup from h)
  exact ⟨hd, he, fun x hx hx' => hdis x hx x hx' rfl⟩

/-- Parts of a proper dag in parallel are proper, and share no strand. -/
theorem Proper.parallel (h : (SpDag.parallel d e).Proper) :
    d.Proper ∧ e.Proper ∧ ∀ x, x ∈ d.english → x ∈ e.english → False :=
  Proper.series (d := d) (e := e) h

/-- No strand is twice in the other order either. -/
theorem Proper.hebrew (h : d.Proper) : d.hebrew.Nodup := by
  have happ : ∀ {d e : SpDag α}, d.hebrew.Nodup → e.hebrew.Nodup →
      (∀ x, x ∈ d.english → x ∈ e.english → False) → (d.hebrew ++ e.hebrew).Nodup := by
    intro d e hd he hdis
    refine List.nodup_append.mpr ⟨hd, he, ?_⟩
    rintro x hx y hy rfl
    exact hdis x (mem_hebrew.mp hx) (mem_hebrew.mp hy)
  induction d with
  | strand x => exact List.nodup_singleton x
  | series d e ihd ihe =>
      obtain ⟨hd, he, hdis⟩ := h.series
      exact happ (ihd hd) (ihe he) hdis
  | parallel d e ihd ihe =>
      obtain ⟨hd, he, hdis⟩ := h.parallel
      exact happ (ihe he) (ihd hd) fun x hx hx' => hdis x hx' hx

/-- Strands of the dag only. -/
theorem Prec.mem (h : d.Prec x y) : x ∈ d.english ∧ y ∈ d.english := by
  induction d with
  | strand _ => exact h.elim
  | series d e ihd ihe =>
      rw [english, List.mem_append, List.mem_append]
      rcases h with h | ⟨hx, hy⟩ | h
      · exact ⟨Or.inl (ihd h).1, Or.inl (ihd h).2⟩
      · exact ⟨Or.inl hx, Or.inr hy⟩
      · exact ⟨Or.inr (ihe h).1, Or.inr (ihe h).2⟩
  | parallel d e ihd ihe =>
      rw [english, List.mem_append, List.mem_append]
      rcases h with h | h
      · exact ⟨Or.inl (ihd h).1, Or.inl (ihd h).2⟩
      · exact ⟨Or.inr (ihe h).1, Or.inr (ihe h).2⟩

/-- **Before in both orders** is before in the dag. -/
theorem both_iff_prec (h : d.Proper) : Both d.english d.hebrew x y ↔ d.Prec x y := by
  have hH : ∀ d : SpDag α, Before d.hebrew x y → x ∈ d.english ∧ y ∈ d.english :=
    fun _ hb => ⟨mem_hebrew.mp hb.mem.1, mem_hebrew.mp hb.mem.2⟩
  induction d with
  | strand z =>
      constructor
      · rintro ⟨⟨-, hy⟩ | hE, -⟩
        · cases hy
        · exact hE.elim
      · exact False.elim
  | series d e ihd ihe =>
      obtain ⟨hd, he, hdis⟩ := h.series
      show Before (d.english ++ e.english) x y ∧ Before (d.hebrew ++ e.hebrew) x y ↔
        d.Prec x y ∨ (x ∈ d.english ∧ y ∈ e.english) ∨ e.Prec x y
      rw [before_append, before_append, mem_hebrew, mem_hebrew]
      constructor
      · rintro ⟨hbE | hxy | hbE, hbH⟩
        · obtain ⟨hxd, hyd⟩ := hbE.mem
          rcases hbH with hbH | ⟨-, hye⟩ | hbH
          · exact Or.inl ((ihd hd).mp ⟨hbE, hbH⟩)
          · exact (hdis y hyd hye).elim
          · exact (hdis x hxd (hH e hbH).1).elim
        · exact Or.inr (Or.inl hxy)
        · obtain ⟨hxe, -⟩ := hbE.mem
          rcases hbH with hbH | ⟨hxd, -⟩ | hbH
          · exact (hdis x (hH d hbH).1 hxe).elim
          · exact (hdis x hxd hxe).elim
          · exact Or.inr (Or.inr ((ihe he).mp ⟨hbE, hbH⟩))
      · rintro (hp | hxy | hp)
        · exact ⟨Or.inl ((ihd hd).mpr hp).1, Or.inl ((ihd hd).mpr hp).2⟩
        · exact ⟨Or.inr (Or.inl hxy), Or.inr (Or.inl hxy)⟩
        · exact ⟨Or.inr (Or.inr ((ihe he).mpr hp).1), Or.inr (Or.inr ((ihe he).mpr hp).2)⟩
  | parallel d e ihd ihe =>
      obtain ⟨hd, he, hdis⟩ := h.parallel
      show Before (d.english ++ e.english) x y ∧ Before (e.hebrew ++ d.hebrew) x y ↔ d.Prec x y ∨ e.Prec x y
      rw [before_append, before_append, mem_hebrew, mem_hebrew]
      constructor
      · rintro ⟨hbE | ⟨hxd, hye⟩ | hbE, hbH⟩
        · obtain ⟨hxd, hyd⟩ := hbE.mem
          rcases hbH with hbH | ⟨hxe, -⟩ | hbH
          · exact (hdis x hxd (hH e hbH).1).elim
          · exact (hdis x hxd hxe).elim
          · exact Or.inl ((ihd hd).mp ⟨hbE, hbH⟩)
        · -- left of each other: the hebrew order has it the other way
          rcases hbH with hbH | ⟨hxe, -⟩ | hbH
          · exact (hdis x hxd (hH e hbH).1).elim
          · exact (hdis x hxd hxe).elim
          · exact (hdis y (hH d hbH).2 hye).elim
        · obtain ⟨hxe, hye⟩ := hbE.mem
          rcases hbH with hbH | ⟨-, hyd⟩ | hbH
          · exact Or.inr ((ihe he).mp ⟨hbE, hbH⟩)
          · exact (hdis y hyd hye).elim
          · exact (hdis x (hH d hbH).1 hxe).elim
      · rintro (hp | hp)
        · exact ⟨Or.inl ((ihd hd).mpr hp).1, Or.inr (Or.inr ((ihd hd).mpr hp).2)⟩
        · exact ⟨Or.inr (Or.inr ((ihe he).mpr hp).1), Or.inl ((ihe he).mpr hp).2⟩

/-- A path goes on with another one. -/
theorem Prec.trans (h : d.Proper) (hxy : d.Prec x y) (hyz : d.Prec y z) : d.Prec x z := by
  obtain ⟨hE, hH⟩ := (both_iff_prec h).mpr hxy
  obtain ⟨hE', hH'⟩ := (both_iff_prec h).mpr hyz
  exact (both_iff_prec h).mp ⟨hE.trans h hE', hH.trans h.hebrew hH'⟩

/-! ## Paths -/

/-- The edges of the first part are there. -/
theorem edge_left : (∀ x y, d.Edge x y → (series d e).Edge x y) ∧ ∀ x y, d.Edge x y → (parallel d e).Edge x y :=
  ⟨fun _ _ => Or.inl, fun _ _ => Or.inl⟩

/-- The edges of the second part are there. -/
theorem edge_right : (∀ x y, e.Edge x y → (series d e).Edge x y) ∧ ∀ x y, e.Edge x y → (parallel d e).Edge x y :=
  ⟨fun _ _ h => Or.inr (Or.inr h), fun _ _ => Or.inr⟩

/-- Sources and sinks are strands. -/
theorem mem_of_end (d : SpDag α) : (∀ x ∈ d.sources, x ∈ d.english) ∧ ∀ x ∈ d.sinks, x ∈ d.english := by
  induction d with
  | strand x => exact ⟨fun _ => id, fun _ => id⟩
  | series d e ihd ihe =>
      exact ⟨fun x hx => List.mem_append_left _ (ihd.1 x hx), fun x hx => List.mem_append_right _ (ihe.2 x hx)⟩
  | parallel d e ihd ihe =>
      constructor
      · intro x hx
        exact (List.mem_append.mp hx).elim (fun hx => List.mem_append_left _ (ihd.1 x hx))
          fun hx => List.mem_append_right _ (ihe.1 x hx)
      · intro x hx
        exact (List.mem_append.mp hx).elim (fun hx => List.mem_append_left _ (ihd.2 x hx))
          fun hx => List.mem_append_right _ (ihe.2 x hx)

/-- No dag is empty. -/
theorem exists_mem (d : SpDag α) : ∃ x, x ∈ d.english := by
  induction d with
  | strand x => exact ⟨x, List.mem_singleton.mpr rfl⟩
  | series d e ihd _ => exact ihd.imp fun _ => List.mem_append_left _
  | parallel d e ihd _ => exact ihd.imp fun _ => List.mem_append_left _

open Relation in
/-- Every strand is reached from a source, and reaches a sink. -/
theorem exists_end (d : SpDag α) : ∀ x ∈ d.english,
    (∃ a ∈ d.sources, ReflTransGen d.Edge a x) ∧ ∃ b ∈ d.sinks, ReflTransGen d.Edge x b := by
  induction d with
  | strand y =>
      intro x hx
      exact ⟨⟨x, hx, .refl⟩, ⟨x, hx, .refl⟩⟩
  | series d e ihd ihe =>
      intro x hx
      have hd : ∀ {x y}, ReflTransGen d.Edge x y → ReflTransGen (series d e).Edge x y :=
        ReflTransGen.mono edge_left.1 _ _
      have he : ∀ {x y}, ReflTransGen e.Edge x y → ReflTransGen (series d e).Edge x y :=
        ReflTransGen.mono edge_right.1 _ _
      -- from any strand of the first part to any of the second
      have hcross : ∀ x ∈ d.english, ∀ y ∈ e.english, ReflTransGen (series d e).Edge x y := by
        intro x hx y hy
        obtain ⟨-, b, hb, hxb⟩ := ihd x hx
        obtain ⟨⟨a, ha, hay⟩, -⟩ := ihe y hy
        exact (hd hxb).trans (ReflTransGen.head (Or.inr (Or.inl ⟨hb, ha⟩)) (he hay))
      rcases List.mem_append.mp hx with hx | hx
      · obtain ⟨⟨a, ha, hax⟩, -⟩ := ihd x hx
        obtain ⟨y, hy⟩ := e.exists_mem
        obtain ⟨-, b, hb, hyb⟩ := ihe y hy
        exact ⟨⟨a, ha, hd hax⟩, b, hb, (hcross x hx y hy).trans (he hyb)⟩
      · obtain ⟨-, b, hb, hxb⟩ := ihe x hx
        obtain ⟨y, hy⟩ := d.exists_mem
        obtain ⟨⟨a, ha, hay⟩, -⟩ := ihd y hy
        exact ⟨⟨a, ha, (hd hay).trans (hcross y hy x hx)⟩, b, hb, he hxb⟩
  | parallel d e ihd ihe =>
      intro x hx
      rcases List.mem_append.mp hx with hx | hx
      · obtain ⟨⟨a, ha, hax⟩, b, hb, hxb⟩ := ihd x hx
        exact ⟨⟨a, List.mem_append_left _ ha, ReflTransGen.mono edge_left.2 _ _ hax⟩,
          b, List.mem_append_left _ hb, ReflTransGen.mono edge_left.2 _ _ hxb⟩
      · obtain ⟨⟨a, ha, hax⟩, b, hb, hxb⟩ := ihe x hx
        exact ⟨⟨a, List.mem_append_right _ ha, ReflTransGen.mono edge_right.2 _ _ hax⟩,
          b, List.mem_append_right _ hb, ReflTransGen.mono edge_right.2 _ _ hxb⟩

/-- An edge is a path. -/
theorem Edge.prec (h : d.Edge x y) : d.Prec x y := by
  induction d with
  | strand _ => exact h
  | series d e ihd ihe =>
      rcases h with h | ⟨hx, hy⟩ | h
      · exact Or.inl (ihd h)
      · exact Or.inr (Or.inl ⟨d.mem_of_end.2 x hx, e.mem_of_end.1 y hy⟩)
      · exact Or.inr (Or.inr (ihe h))
  | parallel d e ihd ihe => exact h.imp ihd ihe

/-- **Before** is a path along the edges. -/
theorem path_iff_prec (h : d.Proper) : d.Path x y ↔ d.Prec x y := by
  constructor
  · intro hp
    induction hp with
    | single hedge => exact hedge.prec
    | tail _ hedge ih => exact ih.trans h hedge.prec
  · intro hp
    clear h
    induction d with
    | strand _ => exact hp.elim
    | series d e ihd ihe =>
        rcases hp with hp | ⟨hx, hy⟩ | hp
        · exact Relation.TransGen.mono edge_left.1 _ _ (ihd hp)
        · obtain ⟨-, b, hb, hxb⟩ := d.exists_end x hx
          obtain ⟨⟨a, ha, hay⟩, -⟩ := e.exists_end y hy
          have hxb := Relation.ReflTransGen.mono (@edge_left _ d e).1 _ _ hxb
          have hay := Relation.ReflTransGen.mono (@edge_right _ d e).1 _ _ hay
          exact Relation.TransGen.trans_right hxb
            (Relation.TransGen.head' (Or.inr (Or.inl ⟨hb, ha⟩)) hay)
        · exact Relation.TransGen.mono edge_right.1 _ _ (ihe hp)
    | parallel d e ihd ihe =>
        rcases hp with hp | hp
        · exact Relation.TransGen.mono edge_left.2 _ _ (ihd hp)
        · exact Relation.TransGen.mono edge_right.2 _ _ (ihe hp)

/-- **No `N`**: with the paths `a → c`, `b → c` and `b → d` there is another comparison. -/
theorem nFree (h : d.Proper) (hac : d.Prec a c) (hbc : d.Prec b c) (hbz : d.Prec b z) :
    d.Prec a z ∨ d.Prec a b ∨ d.Prec b a ∨ d.Prec c z ∨ d.Prec z c := by
  induction d with
  | strand _ => exact hac.elim
  | series d e ihd ihe =>
      obtain ⟨hd, he, hdis⟩ := h.series
      rcases hac with hac | ⟨ha, hc⟩ | hac
      · -- `c` is in the first part, so `b` is too
        rcases hbc with hbc | ⟨-, hc⟩ | hbc
        · rcases hbz with hbz | ⟨-, hz⟩ | hbz
          · exact (ihd hd hac hbc hbz).imp Or.inl (Or.imp Or.inl (Or.imp Or.inl (Or.imp Or.inl Or.inl)))
          · exact Or.inl (Or.inr (Or.inl ⟨hac.mem.1, hz⟩))
          · exact (hdis b hbc.mem.1 hbz.mem.1).elim
        · exact (hdis c hac.mem.2 hc).elim
        · exact (hdis c hac.mem.2 hbc.mem.2).elim
      · -- `z` is before `c` or behind `a`
        rcases hbz with hbz | ⟨-, hz⟩ | hbz
        · exact Or.inr (Or.inr (Or.inr (Or.inr (Or.inr (Or.inl ⟨hbz.mem.2, hc⟩)))))
        · exact Or.inl (Or.inr (Or.inl ⟨ha, hz⟩))
        · exact Or.inl (Or.inr (Or.inl ⟨ha, hbz.mem.2⟩))
      · rcases hbc with hbc | ⟨hb, -⟩ | hbc
        · exact (hdis c hbc.mem.2 hac.mem.2).elim
        · exact Or.inr (Or.inr (Or.inl (Or.inr (Or.inl ⟨hb, hac.mem.1⟩))))
        · rcases hbz with hbz | ⟨hb, -⟩ | hbz
          · exact (hdis b hbz.mem.1 hbc.mem.1).elim
          · exact (hdis b hb hbc.mem.1).elim
          · have hr : ∀ {x y}, e.Prec x y → (SpDag.series d e).Prec x y := fun h => Or.inr (Or.inr h)
            exact (ihe he hac hbc hbz).imp hr (Or.imp hr (Or.imp hr (Or.imp hr hr)))
  | parallel d e ihd ihe =>
      obtain ⟨hd, he, hdis⟩ := h.parallel
      -- the four strands are in one part
      rcases hac with hac | hac
      · have hbc := hbc.resolve_right fun h => hdis c hac.mem.2 h.mem.2
        have hbz := hbz.resolve_right fun h => hdis b hbc.mem.1 h.mem.1
        exact (ihd hd hac hbc hbz).imp Or.inl (Or.imp Or.inl (Or.imp Or.inl (Or.imp Or.inl Or.inl)))
      · have hbc := hbc.resolve_left fun h => hdis c h.mem.2 hac.mem.2
        have hbz := hbz.resolve_left fun h => hdis b h.mem.1 hbc.mem.1
        exact (ihe he hac hbc hbz).imp Or.inr (Or.imp Or.inr (Or.imp Or.inr (Or.imp Or.inr Or.inr)))

end SpDag
end FOrder
