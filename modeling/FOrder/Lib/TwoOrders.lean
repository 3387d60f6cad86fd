import FOrder.Lib.Order

/-!
# `Lib.TwoOrders` — partial orders as the meet of two lists

Two lists with the same members order them partially: `x` is before `y` when it comes first in both. A new
member put after a base in both lists is in series with it. Two new members put after the base in opposite
orders are parallel to each other, and stand to the others as the base does.
-/

namespace FOrder

variable {α : Type}

/-- Before in both lists. -/
def Both (E H : List α) (x y : α) : Prop := Before E x y ∧ Before H x y

instance [DecidableEq α] (E H : List α) (x y : α) : Decidable (Both E H x y) :=
  inferInstanceAs (Decidable (_ ∧ _))

/-- Two lists with the same members. -/
structure Twin (E H : List α) : Prop where
  nodupE : E.Nodup
  nodupH : H.Nodup
  mem : ∀ x, x ∈ E ↔ x ∈ H

variable {E H : List α} {a b c n x y : α}

/-- Nothing comes before itself. -/
theorem not_both_self (h : Twin E H) : ¬Both E H x x := fun hx => not_before_self h.nodupE hx.1

/-- **Total orders disagree** on what the meet leaves unordered. -/
theorem disagree_iff (h : Twin E H) (hx : x ∈ E) (hy : y ∈ E) (hne : x ≠ y) :
    ((Before E x y ∧ Before H y x) ∨ (Before E y x ∧ Before H x y)) ↔ ¬Both E H x y ∧ ¬Both E H y x := by
  have hE := (before_or hx hy).resolve_left hne
  have hH := (before_or ((h.mem x).mp hx) ((h.mem y).mp hy)).resolve_left hne
  constructor
  · rintro (⟨hxy, hyx⟩ | ⟨hyx, hxy⟩)
    · exact ⟨fun h' => h'.2.asymm h.nodupH hyx, fun h' => h'.1.asymm h.nodupE hxy⟩
    · exact ⟨fun h' => h'.1.asymm h.nodupE hyx, fun h' => h'.2.asymm h.nodupH hxy⟩
  · rintro ⟨h₁, h₂⟩
    rcases hE with hE | hE
    · rcases hH with hH | hH
      · exact absurd ⟨hE, hH⟩ h₁
      · exact Or.inl ⟨hE, hH⟩
    · rcases hH with hH | hH
      · exact Or.inr ⟨hE, hH⟩
      · exact absurd ⟨hE, hH⟩ h₂

variable [DecidableEq α]

/-! ## In series -/

section Series

variable (h : Twin E H) (hc : c ∈ E) (hn : n ∉ E)

include h hc hn

/-- The new member is in both lists. -/
theorem Twin.series : Twin (insertAfter c n E) (insertAfter c n H) where
  nodupE := nodup_insertAfter h.nodupE hc hn
  nodupH := nodup_insertAfter h.nodupH ((h.mem c).mp hc) (fun hm => hn ((h.mem n).mpr hm))
  mem x := by
    rw [mem_insertAfter hc, mem_insertAfter ((h.mem c).mp hc), h.mem]

omit hn in
/-- The others stand to each other as before. -/
theorem both_series_old (hx : x ≠ n) (hy : y ≠ n) :
    Both (insertAfter c n E) (insertAfter c n H) x y ↔ Both E H x y := by
  unfold Both
  rw [before_insertAfter hc hx hy, before_insertAfter ((h.mem c).mp hc) hx hy]

/-- The new member comes after its base, and after what the base comes after. -/
theorem both_series_to (hx : x ≠ n) :
    Both (insertAfter c n E) (insertAfter c n H) x n ↔ x = c ∨ Both E H x c := by
  unfold Both
  rw [before_new h.nodupE hc hn hx,
    before_new h.nodupH ((h.mem c).mp hc) (fun hm => hn ((h.mem n).mpr hm)) hx]
  tauto

/-- And before what the base comes before. -/
theorem both_series_from :
    Both (insertAfter c n E) (insertAfter c n H) n y ↔ Both E H c y := by
  unfold Both
  rw [new_before h.nodupE hc hn,
    new_before h.nodupH ((h.mem c).mp hc) (fun hm => hn ((h.mem n).mpr hm))]

end Series

/-! ## In parallel -/

section Parallel

variable (h : Twin E H) (hc : c ∈ E) (ha : a ∉ E) (hb : b ∉ E) (hab : a ≠ b)

include h hc ha hb hab

omit ha hb hab in
/-- Each of the two is in one list so far. -/
theorem parallel_mem : a ∈ insertAfter c a E ∧ b ∈ insertAfter c b H :=
  ⟨(mem_insertAfter hc).mpr (Or.inl rfl), (mem_insertAfter ((h.mem c).mp hc)).mpr (Or.inl rfl)⟩

/-- Neither is in the list into which the other was put first. -/
theorem parallel_fresh : b ∉ insertAfter c a E ∧ a ∉ insertAfter c b H := by
  rw [mem_insertAfter hc, mem_insertAfter ((h.mem c).mp hc), ← h.mem]
  exact ⟨fun hm => hm.elim (fun he => hab he.symm) hb, fun hm => hm.elim hab ha⟩

omit hab in
/-- Nothing is there twice. -/
theorem parallel_nodup : (insertAfter c a E).Nodup ∧ (insertAfter c b H).Nodup :=
  ⟨nodup_insertAfter h.nodupE hc ha,
    nodup_insertAfter h.nodupH ((h.mem c).mp hc) (fun hm => hb ((h.mem b).mpr hm))⟩

/-- Both new members are in both lists. -/
theorem Twin.parallel :
    Twin (insertAfter a b (insertAfter c a E)) (insertAfter b a (insertAfter c b H)) := by
  obtain ⟨haE, hbH⟩ := parallel_mem (a := a) (b := b) h hc
  obtain ⟨hbE, haH⟩ := parallel_fresh h hc ha hb hab
  obtain ⟨hE, hH⟩ := parallel_nodup h hc ha hb
  refine ⟨nodup_insertAfter hE haE hbE, nodup_insertAfter hH hbH haH, ?_⟩
  intro x
  rw [mem_insertAfter haE, mem_insertAfter hbH, mem_insertAfter hc, mem_insertAfter ((h.mem c).mp hc), h.mem]
  tauto

omit ha hb hab in
/-- The others stand to each other as before. -/
theorem both_parallel_old (hxa : x ≠ a) (hxb : x ≠ b) (hya : y ≠ a) (hyb : y ≠ b) :
    Both (insertAfter a b (insertAfter c a E)) (insertAfter b a (insertAfter c b H)) x y ↔
      Both E H x y := by
  obtain ⟨haE, hbH⟩ := parallel_mem (a := a) (b := b) h hc
  unfold Both
  rw [before_insertAfter haE hxb hyb, before_insertAfter hc hxa hya, before_insertAfter hbH hxa hya,
    before_insertAfter ((h.mem c).mp hc) hxb hyb]

/-- The first one comes after its base, and after what the base comes after. -/
theorem both_parallel_to_left (hxa : x ≠ a) (hxb : x ≠ b) :
    Both (insertAfter a b (insertAfter c a E)) (insertAfter b a (insertAfter c b H)) x a ↔
      x = c ∨ Both E H x c := by
  obtain ⟨haE, hbH⟩ := parallel_mem (a := a) (b := b) h hc
  obtain ⟨hbE, haH⟩ := parallel_fresh h hc ha hb hab
  obtain ⟨hE, hH⟩ := parallel_nodup h hc ha hb
  unfold Both
  rw [before_insertAfter haE hxb hab, before_new h.nodupE hc ha hxa, before_new hH hbH haH hxa,
    before_new h.nodupH ((h.mem c).mp hc) (fun hm => hb ((h.mem b).mpr hm)) hxb]
  tauto

/-- The second one comes after the same. -/
theorem both_parallel_to_right (hxa : x ≠ a) (hxb : x ≠ b) :
    Both (insertAfter a b (insertAfter c a E)) (insertAfter b a (insertAfter c b H)) x b ↔
      x = c ∨ Both E H x c := by
  obtain ⟨haE, hbH⟩ := parallel_mem (a := a) (b := b) h hc
  obtain ⟨hbE, haH⟩ := parallel_fresh h hc ha hb hab
  obtain ⟨hE, hH⟩ := parallel_nodup h hc ha hb
  unfold Both
  rw [before_new hE haE hbE hxb, before_new h.nodupE hc ha hxa, before_insertAfter hbH hxa hab.symm,
    before_new h.nodupH ((h.mem c).mp hc) (fun hm => hb ((h.mem b).mpr hm)) hxb]
  tauto

/-- The first one comes before what the base comes before. -/
theorem both_parallel_from_left (hyb : y ≠ b) :
    Both (insertAfter a b (insertAfter c a E)) (insertAfter b a (insertAfter c b H)) a y ↔
      Both E H c y := by
  obtain ⟨haE, hbH⟩ := parallel_mem (a := a) (b := b) h hc
  obtain ⟨hbE, haH⟩ := parallel_fresh h hc ha hb hab
  obtain ⟨hE, hH⟩ := parallel_nodup h hc ha hb
  unfold Both
  rw [before_insertAfter haE hab hyb, new_before h.nodupE hc ha, new_before hH hbH haH,
    new_before h.nodupH ((h.mem c).mp hc) (fun hm => hb ((h.mem b).mpr hm))]

/-- The second one comes before the same. -/
theorem both_parallel_from_right (hya : y ≠ a) :
    Both (insertAfter a b (insertAfter c a E)) (insertAfter b a (insertAfter c b H)) b y ↔
      Both E H c y := by
  obtain ⟨haE, hbH⟩ := parallel_mem (a := a) (b := b) h hc
  obtain ⟨hbE, haH⟩ := parallel_fresh h hc ha hb hab
  obtain ⟨hE, hH⟩ := parallel_nodup h hc ha hb
  unfold Both
  rw [new_before hE haE hbE, new_before h.nodupE hc ha, before_insertAfter hbH hab.symm hya,
    new_before h.nodupH ((h.mem c).mp hc) (fun hm => hb ((h.mem b).mpr hm))]

/-- **The two are parallel**: they are in opposite orders in the two lists. -/
theorem not_both_parallel :
    ¬Both (insertAfter a b (insertAfter c a E)) (insertAfter b a (insertAfter c b H)) a b ∧
      ¬Both (insertAfter a b (insertAfter c a E)) (insertAfter b a (insertAfter c b H)) b a := by
  obtain ⟨haE, hbH⟩ := parallel_mem (a := a) (b := b) h hc
  obtain ⟨hbE, haH⟩ := parallel_fresh h hc ha hb hab
  obtain ⟨hE, hH⟩ := parallel_nodup h hc ha hb
  constructor
  · rintro ⟨-, hH'⟩
    rw [new_before hH hbH haH] at hH'
    exact not_before_self hH hH'
  · rintro ⟨hE', -⟩
    rw [new_before hE haE hbE] at hE'
    exact not_before_self hE hE'

end Parallel

end FOrder
