import Mathlib.Data.List.Basic
import Mathlib.Data.List.Nodup
import Mathlib.Tactic.Common

/-!
# `Lib.Order` — total orders kept as lists

An order maintenance structure keeps a list without repetitions, asks which of two members comes first, and puts a
new member immediately after an old one. The new member then stands to all others as the old one does.

`Before` is defined along the list, so that it can be decided and its lemmas are inductions on the list.
`before_insertAfter`, `before_new` and `new_before` say all there is to say about an insert; what keeps several such
lists can be told from these three.
-/

namespace FOrder

variable {α : Type}

/-- `x` comes strictly before `y`. -/
def Before : List α → α → α → Prop
  | [], _, _ => False
  | a :: l, x, y => (x = a ∧ y ∈ l) ∨ Before l x y

/-- By recursion on the list, so that `Before` on a literal list is decided by evaluation. -/
instance decidableBefore [DecidableEq α] : (l : List α) → (x y : α) → Decidable (Before l x y)
  | [], _, _ => inferInstanceAs (Decidable False)
  | a :: l, x, y =>
      have := decidableBefore l x y
      inferInstanceAs (Decidable ((x = a ∧ y ∈ l) ∨ Before l x y))

/-- Put `new` immediately after `base`. -/
def insertAfter [DecidableEq α] (base new : α) : List α → List α
  | [] => []
  | a :: l => if a = base then a :: new :: l else a :: insertAfter base new l

variable {l : List α} {x y z b n : α}

/-! ## A strict total order -/

/-- Only members come before one another. -/
theorem Before.mem (h : Before l x y) : x ∈ l ∧ y ∈ l := by
  induction l with
  | nil => exact h.elim
  | cons a l ih =>
      rcases h with ⟨rfl, hy⟩ | h
      · exact ⟨List.mem_cons_self, List.mem_cons_of_mem _ hy⟩
      · exact ⟨List.mem_cons_of_mem _ (ih h).1, List.mem_cons_of_mem _ (ih h).2⟩

/-- Without repetitions, no member comes before itself. -/
theorem Before.ne (hl : l.Nodup) (h : Before l x y) : x ≠ y := by
  induction l with
  | nil => exact h.elim
  | cons a l ih =>
      obtain ⟨ha, hl⟩ := List.nodup_cons.mp hl
      rcases h with ⟨rfl, hy⟩ | h
      · rintro rfl
        exact ha hy
      · exact ih hl h

/-- In a list without duplicates nothing comes before itself. -/
theorem not_before_self (hl : l.Nodup) : ¬Before l x x := fun h => h.ne hl rfl

/-- `Before` is transitive. -/
theorem Before.trans (hl : l.Nodup) (h : Before l x y) (h' : Before l y z) : Before l x z := by
  induction l with
  | nil => exact h.elim
  | cons a l ih =>
      obtain ⟨ha, hl⟩ := List.nodup_cons.mp hl
      rcases h with ⟨rfl, hy⟩ | h
      · rcases h' with ⟨rfl, -⟩ | h'
        · exact absurd hy ha
        · exact Or.inl ⟨rfl, h'.mem.2⟩
      · rcases h' with ⟨rfl, -⟩ | h'
        · exact absurd h.mem.2 ha
        · exact Or.inr (ih hl h h')

/-- `Before` holds one way only. -/
theorem Before.asymm (hl : l.Nodup) (h : Before l x y) : ¬Before l y x :=
  fun h' => not_before_self hl (h.trans hl h')

/-- Of two members, one comes before the other. -/
theorem before_or (hx : x ∈ l) (hy : y ∈ l) : x = y ∨ Before l x y ∨ Before l y x := by
  induction l with
  | nil => cases hx
  | cons a l ih =>
      rcases List.mem_cons.mp hx with rfl | hx
      · rcases List.mem_cons.mp hy with rfl | hy
        · exact Or.inl rfl
        · exact Or.inr (Or.inl (Or.inl ⟨rfl, hy⟩))
      · rcases List.mem_cons.mp hy with hya | hy
        · exact Or.inr (Or.inr (Or.inl ⟨hya, hx⟩))
        · rcases ih hx hy with h | h | h
          · exact Or.inl h
          · exact Or.inr (Or.inl (Or.inr h))
          · exact Or.inr (Or.inr (Or.inr h))

/-- In a list made of two, the members of the first come before those of the second. -/
theorem before_append {l' : List α} :
    Before (l ++ l') x y ↔ Before l x y ∨ (x ∈ l ∧ y ∈ l') ∨ Before l' x y := by
  induction l with
  | nil =>
      show Before l' x y ↔ False ∨ (x ∈ [] ∧ y ∈ l') ∨ Before l' x y
      simp
  | cons a l ih =>
      show (x = a ∧ y ∈ l ++ l') ∨ Before (l ++ l') x y ↔
        ((x = a ∧ y ∈ l) ∨ Before l x y) ∨ (x ∈ a :: l ∧ y ∈ l') ∨ Before l' x y
      rw [ih, List.mem_append, List.mem_cons]
      tauto

/-- **Along a sorted list** the order is that of the keys. -/
theorem before_map_iff {β : Type} {r : β → β → Prop} (hirrefl : ∀ e, ¬r e e) (hasymm : ∀ e f, r e f → ¬r f e)
    (f : β → α) {es : List β} (hsorted : es.Pairwise r) (hinj : (es.map f).Nodup) {e e' : β} (he : e ∈ es)
    (he' : e' ∈ es) : Before (es.map f) (f e) (f e') ↔ r e e' := by
  induction es with
  | nil => cases he
  | cons a es ih =>
      obtain ⟨hfirst, hsorted⟩ := List.pairwise_cons.mp hsorted
      obtain ⟨hnew, hinj⟩ := List.nodup_cons.mp hinj
      have hne : ∀ c ∈ es, f c ≠ f a := fun c hc heq => hnew (heq ▸ List.mem_map_of_mem hc)
      show (f e = f a ∧ f e' ∈ es.map f) ∨ Before (es.map f) (f e) (f e') ↔ r e e'
      rcases List.mem_cons.mp he with rfl | hrest
      · rcases List.mem_cons.mp he' with rfl | hrest'
        · constructor
          · rintro (⟨-, hmem⟩ | hbefore)
            · exact absurd hmem hnew
            · exact absurd hbefore.mem.1 hnew
          · exact fun hr => absurd hr (hirrefl _)
        · constructor
          · exact fun _ => hfirst e' hrest'
          · exact fun _ => Or.inl ⟨rfl, List.mem_map_of_mem hrest'⟩
      · rcases List.mem_cons.mp he' with rfl | hrest'
        · constructor
          · rintro (⟨heq, -⟩ | hbefore)
            · exact absurd heq (hne e hrest)
            · exact absurd hbefore.mem.2 hnew
          · exact fun hr => absurd hr (hasymm _ _ (hfirst e hrest))
        · rw [← ih hsorted hinj hrest hrest']
          constructor
          · rintro (⟨heq, -⟩ | hbefore)
            · exact absurd heq (hne e hrest)
            · exact hbefore
          · exact Or.inr

/-! ## Inserting -/

section Insert

variable [DecidableEq α]

/-- The list has one member more. -/
theorem mem_insertAfter (hb : b ∈ l) : x ∈ insertAfter b n l ↔ x = n ∨ x ∈ l := by
  induction l with
  | nil => cases hb
  | cons a l ih =>
      unfold insertAfter
      split
      · simp only [List.mem_cons]
        tauto
      · rename_i hab
        have hb' : b ∈ l := (List.mem_cons.mp hb).resolve_left (fun h => hab h.symm)
        rw [List.mem_cons, List.mem_cons, ih hb']
        tauto

/-- A new member does not repeat one. -/
theorem nodup_insertAfter (hl : l.Nodup) (hb : b ∈ l) (hn : n ∉ l) : (insertAfter b n l).Nodup := by
  induction l with
  | nil => cases hb
  | cons a l ih =>
      obtain ⟨ha, hl⟩ := List.nodup_cons.mp hl
      rw [List.mem_cons, not_or] at hn
      unfold insertAfter
      split
      · refine List.nodup_cons.mpr ⟨?_, List.nodup_cons.mpr ⟨hn.2, hl⟩⟩
        rw [List.mem_cons, not_or]
        exact ⟨fun h => hn.1 h.symm, ha⟩
      · rename_i hab
        have hb' : b ∈ l := (List.mem_cons.mp hb).resolve_left (fun h => hab h.symm)
        refine List.nodup_cons.mpr ⟨?_, ih hl hb' hn.2⟩
        rw [mem_insertAfter hb', not_or]
        exact ⟨fun h => hn.1 h.symm, ha⟩

/-- The list is longer by one. -/
theorem length_insertAfter (hb : b ∈ l) : (insertAfter b n l).length = l.length + 1 := by
  induction l with
  | nil => cases hb
  | cons a l ih =>
      unfold insertAfter
      split
      · rfl
      · rename_i hab
        have hb' : b ∈ l := (List.mem_cons.mp hb).resolve_left (fun h => hab h.symm)
        rw [List.length_cons, ih hb', List.length_cons]

/-- The insert is where the base is, in the first of two lists. -/
theorem insertAfter_append_left {l' : List α} (hb : b ∈ l) :
    insertAfter b n (l ++ l') = insertAfter b n l ++ l' := by
  induction l with
  | nil => cases hb
  | cons a l ih =>
      rw [List.cons_append]
      unfold insertAfter
      split
      · rfl
      · rename_i hab
        have hb' : b ∈ l := (List.mem_cons.mp hb).resolve_left (fun h => hab h.symm)
        rw [ih hb', List.cons_append]

/-- When the base is not in the first of two lists, the insert is in the second. -/
theorem insertAfter_append_right {l' : List α} (hb : b ∉ l) :
    insertAfter b n (l ++ l') = l ++ insertAfter b n l' := by
  induction l with
  | nil => rfl
  | cons a l ih =>
      rw [List.mem_cons, not_or] at hb
      rw [List.cons_append]
      conv_lhs => unfold insertAfter
      rw [if_neg (Ne.symm hb.1), ih hb.2, List.cons_append]

/-- **The others** keep their order. -/
theorem before_insertAfter (hb : b ∈ l) (hx : x ≠ n) (hy : y ≠ n) :
    Before (insertAfter b n l) x y ↔ Before l x y := by
  induction l with
  | nil => cases hb
  | cons a l ih =>
      unfold insertAfter
      split
      · show (x = a ∧ y ∈ n :: l) ∨ (x = n ∧ y ∈ l) ∨ Before l x y ↔ (x = a ∧ y ∈ l) ∨ Before l x y
        simp only [List.mem_cons, hx, hy, false_and, false_or]
      · rename_i hab
        have hb' : b ∈ l := (List.mem_cons.mp hb).resolve_left (fun h => hab h.symm)
        show (x = a ∧ y ∈ insertAfter b n l) ∨ Before (insertAfter b n l) x y ↔
          (x = a ∧ y ∈ l) ∨ Before l x y
        rw [ih hb', mem_insertAfter hb']
        simp only [hy, false_or]

/-- **The new member** comes after the base and after what comes before the base. -/
theorem before_new (hl : l.Nodup) (hb : b ∈ l) (hn : n ∉ l) (hx : x ≠ n) :
    Before (insertAfter b n l) x n ↔ x = b ∨ Before l x b := by
  induction l with
  | nil => cases hb
  | cons a l ih =>
      obtain ⟨ha, hl⟩ := List.nodup_cons.mp hl
      rw [List.mem_cons, not_or] at hn
      unfold insertAfter
      split
      · rename_i hab
        subst hab
        show (x = a ∧ n ∈ n :: l) ∨ (x = n ∧ n ∈ l) ∨ Before l x n ↔
          x = a ∨ (x = a ∧ a ∈ l) ∨ Before l x a
        constructor
        · rintro (⟨h, -⟩ | ⟨h, -⟩ | h)
          · exact Or.inl h
          · exact absurd h hx
          · exact absurd h.mem.2 hn.2
        · rintro (h | ⟨h, -⟩ | h)
          · exact Or.inl ⟨h, List.mem_cons_self⟩
          · exact Or.inl ⟨h, List.mem_cons_self⟩
          · exact absurd h.mem.2 ha
      · rename_i hab
        have hb' : b ∈ l := (List.mem_cons.mp hb).resolve_left (fun h => hab h.symm)
        show (x = a ∧ n ∈ insertAfter b n l) ∨ Before (insertAfter b n l) x n ↔
          x = b ∨ (x = a ∧ b ∈ l) ∨ Before l x b
        rw [ih hl hb' hn.2, mem_insertAfter hb']
        simp only [true_or, and_true, hb']
        tauto

/-- **The new member** comes before what the base comes before. -/
theorem new_before (hl : l.Nodup) (hb : b ∈ l) (hn : n ∉ l) :
    Before (insertAfter b n l) n y ↔ Before l b y := by
  induction l with
  | nil => cases hb
  | cons a l ih =>
      obtain ⟨ha, hl⟩ := List.nodup_cons.mp hl
      rw [List.mem_cons, not_or] at hn
      unfold insertAfter
      split
      · rename_i hab
        subst hab
        show (n = a ∧ y ∈ n :: l) ∨ (n = n ∧ y ∈ l) ∨ Before l n y ↔ (a = a ∧ y ∈ l) ∨ Before l a y
        constructor
        · rintro (⟨h, -⟩ | ⟨-, h⟩ | h)
          · exact absurd h hn.1
          · exact Or.inl ⟨rfl, h⟩
          · exact absurd h.mem.1 hn.2
        · rintro (⟨-, h⟩ | h)
          · exact Or.inr (Or.inl ⟨rfl, h⟩)
          · exact absurd h.mem.1 ha
      · rename_i hab
        have hb' : b ∈ l := (List.mem_cons.mp hb).resolve_left (fun h => hab h.symm)
        have hba : b ≠ a := fun h => hab h.symm
        show (n = a ∧ y ∈ insertAfter b n l) ∨ Before (insertAfter b n l) n y ↔
          (b = a ∧ y ∈ l) ∨ Before l b y
        rw [ih hl hb' hn.2]
        simp only [hn.1, hba, false_and, false_or]

end Insert

end FOrder
