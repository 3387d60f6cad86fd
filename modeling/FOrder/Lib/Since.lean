import Mathlib.Data.List.Induction
import Mathlib.Tactic.Common

/-!
# `Lib.Since` — the suffix of a history that still matters

A summary of a history often forgets everything before the last element of some kind. `Since keep h a` says
that `a` occurs in `h` and only elements that satisfy `keep` follow it: the last element that does not
satisfy `keep`, and everything after it, are the ones that occur since.
-/

namespace FOrder

variable {α : Type} {keep : α → Prop}

/-- `a` occurs in `h` and everything after it satisfies `keep`. -/
def Since (keep : α → Prop) (h : List α) (a : α) : Prop :=
  ∃ h₁ h₂, h = h₁ ++ a :: h₂ ∧ ∀ c ∈ h₂, keep c

/-- What was seen since is in the list. -/
theorem Since.mem {h : List α} {a : α} (hs : Since keep h a) : a ∈ h := by
  obtain ⟨h₁, h₂, rfl, -⟩ := hs
  simp

/-- At first nothing has been seen. -/
theorem not_since_nil (a : α) : ¬Since keep [] a :=
  fun hs => by simpa using hs.mem

/-- The last entry has been seen since. -/
theorem since_concat_self (h : List α) (a : α) : Since keep (h ++ [a]) a :=
  ⟨h, [], rfl, by simp⟩

/-- An entry that keeps forgets nothing. -/
theorem Since.concat {h : List α} {a x : α} (hs : Since keep h a) (hx : keep x) :
    Since keep (h ++ [x]) a := by
  obtain ⟨h₁, h₂, rfl, hkeep⟩ := hs
  refine ⟨h₁, h₂ ++ [x], by simp, ?_⟩
  intro c hc
  rcases List.mem_append.mp hc with hc | hc
  · exact hkeep c hc
  · rw [List.mem_singleton.mp hc]
    exact hx

/-- Splitting `h ++ [x]` at an element: at `x` itself, or inside `h`. -/
theorem concat_eq_append_cons {h p q : List α} {x c : α} : h ++ [x] = p ++ c :: q ↔
    (h = p ∧ x = c ∧ q = []) ∨ ∃ q', h = p ++ c :: q' ∧ q = q' ++ [x] := by
  constructor
  · intro heq
    induction q using List.reverseRecOn with
    | nil =>
        have hsplit := List.append_inj' heq rfl
        exact Or.inl ⟨hsplit.1, List.singleton_inj.mp hsplit.2, rfl⟩
    | append_singleton q' y _ =>
        have heq' : h ++ [x] = (p ++ c :: q') ++ [y] := by
          rw [heq, List.append_assoc, List.cons_append]
        have hsplit := List.append_inj' heq' rfl
        obtain rfl := List.singleton_inj.mp hsplit.2
        exact Or.inr ⟨q', hsplit.1, rfl⟩
  · rintro (⟨rfl, rfl, rfl⟩ | ⟨q', rfl, rfl⟩)
    · rfl
    · simp

/-- What occurs since in `h ++ [x]` is `x`, or occurred since before and `x` satisfies `keep`. -/
theorem since_concat_cases {h : List α} {a x : α} (hs : Since keep (h ++ [x]) a) :
    a = x ∨ (Since keep h a ∧ keep x) := by
  obtain ⟨h₁, h₂, heq, hkeep⟩ := hs
  rcases concat_eq_append_cons.mp heq with ⟨-, rfl, -⟩ | ⟨h₂', rfl, rfl⟩
  · exact Or.inl rfl
  · exact Or.inr ⟨⟨h₁, h₂', rfl, fun c hc => hkeep c (by simp [hc])⟩, hkeep x (by simp)⟩

/-- `Since` of a filtered history, in terms of the whole one. -/
theorem since_filter {q : α → Bool} {h : List α} {a : α} :
    Since keep (h.filter q) a ↔
      ∃ h₁ h₂, h = h₁ ++ a :: h₂ ∧ q a = true ∧ ∀ c ∈ h₂, q c = true → keep c := by
  constructor
  · rintro ⟨g₁, g₂, heq, hkeep⟩
    obtain ⟨l₁, l₂, rfl, -, hl₂⟩ := List.filter_eq_append_iff.mp heq
    obtain ⟨m₁, m₂, rfl, -, hqa, hm₂⟩ := List.filter_eq_cons_iff.mp hl₂
    refine ⟨l₁ ++ m₁, m₂, by simp, hqa, ?_⟩
    intro c hc hq
    apply hkeep
    rw [← hm₂]
    exact List.mem_filter.mpr ⟨hc, hq⟩
  · rintro ⟨h₁, h₂, rfl, hqa, hkeep⟩
    refine ⟨h₁.filter q, h₂.filter q, by simp [hqa], ?_⟩
    intro c hc
    obtain ⟨hc, hq⟩ := List.mem_filter.mp hc
    exact hkeep c hc hq

/-! ## Checking only what occurs since -/

section Checked

variable {r : α → α → Prop}

/-- `a` still occurs, or what replaced it comes after it. -/
def Followed (keep : α → Prop) (r : α → α → Prop) (h : List α) (a : α) : Prop :=
  Since keep h a ∨ ∃ w, Since keep h w ∧ ¬keep w ∧ r a w

/-- **The step.** A new entry keeps what is followed followed, provided that every entry that is still remembered is
    before it, unless both of them keep. -/
theorem Followed.concat (htrans : ∀ x y z, r x y → r y z → r x z) {h : List α} {a x : α} (ha : Followed keep r h a)
    (hchecked : ∀ b, Since keep h b → ¬keep b ∨ ¬keep x → r b x) : Followed keep r (h ++ [x]) a := by
  by_cases hx : keep x
  · exact ha.imp (fun hs => hs.concat hx) fun ⟨w, hs, hw, hr⟩ => ⟨w, hs.concat hx, hw, hr⟩
  · -- `x` replaces everything
    refine Or.inr ⟨x, since_concat_self h x, hx, ?_⟩
    rcases ha with hs | ⟨w, hs, hw, hr⟩
    · exact hchecked a hs (Or.inr hx)
    · exact htrans a w x hr (hchecked w hs (Or.inl hw))

/-- **It is enough to check what occurs since.** When each element comes after the ones that occur since and that it is
    to be checked against, it comes after all of them. -/
theorem related_of_since (htrans : ∀ x y z, r x y → r y z → r x z) {h : List α}
    (hchecked : ∀ pre c post, h = pre ++ c :: post → ∀ b, Since keep pre b → ¬keep b ∨ ¬keep c → r b c)
    {pre post : List α} {a c : α} (heq : h = pre ++ c :: post) (ha : a ∈ pre) (hne : ¬keep a ∨ ¬keep c) : r a c := by
  have hfollowed : ∀ rest, h = pre ++ rest → ∀ b ∈ pre, Followed keep r pre b := by
    clear heq ha
    induction pre using List.reverseRecOn with
    | nil =>
        intro rest _ b hb
        cases hb
    | append_singleton pre x ih =>
        intro rest heq b hb
        have heq' : h = pre ++ x :: rest := by simpa using heq
        rcases List.mem_append.mp hb with hb | hb
        · exact (ih (x :: rest) heq' b hb).concat htrans (hchecked pre x rest heq')
        · rw [List.mem_singleton.mp hb]
          exact Or.inl (since_concat_self pre x)
  rcases hfollowed _ heq a ha with hs | ⟨w, hs, hw, hr⟩
  · exact hchecked pre c post heq a hs hne
  · exact htrans a w c hr (hchecked pre c post heq w hs (Or.inl hw))

end Checked

end FOrder
