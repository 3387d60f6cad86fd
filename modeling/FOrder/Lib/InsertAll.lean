import FOrder.Lib.Order

/-!
# `Lib.InsertAll` — the order of inserts does not matter

A family of requests, each to put a new member right after a base, gives the same list in whatever order they are
performed, as long as every base is there when it is used and the requests on one base keep their order.
-/

namespace FOrder

variable {α : Type} [DecidableEq α] {l : List α} {b b' n n' : α}

/-- Inserts after different bases commute. -/
theorem insertAfter_comm (hb : b ≠ b') (hn : n ≠ b') (hn' : n' ≠ b) :
    insertAfter b n (insertAfter b' n' l) = insertAfter b' n' (insertAfter b n l) := by
  induction l with
  | nil => rfl
  | cons a l ih =>
      by_cases ha : a = b
      · subst ha
        simp [insertAfter, hb, hn]
      · by_cases ha' : a = b'
        · subst ha'
          simp [insertAfter, ha, hn']
        · simp [insertAfter, ha, ha', ih]

/-- A request: put `new` right after `base`. -/
structure Request (α : Type) where
  new : α
  base : α
  deriving DecidableEq

/-- Perform the requests one after the other. -/
def insertAll (l : List α) (rs : List (Request α)) : List α :=
  rs.foldl (fun l r => insertAfter r.base r.new l) l

/-- Every base is there when it is used, and the new member is not. -/
def Performable : List α → List (Request α) → Prop
  | _, [] => True
  | l, r :: rs => r.base ∈ l ∧ r.new ∉ l ∧ Performable (insertAfter r.base r.new l) rs

/-- The last request is performed on what the others have made. -/
theorem insertAll_snoc (rs : List (Request α)) (r : Request α) :
    insertAll l (rs ++ [r]) = insertAfter r.base r.new (insertAll l rs) := by
  unfold insertAll
  rw [List.foldl_append]
  rfl

/-- One request more, on a member and with a new one. -/
theorem Performable.snoc {rs : List (Request α)} {r : Request α} (h : Performable l rs)
    (hbase : r.base ∈ insertAll l rs) (hnew : r.new ∉ insertAll l rs) : Performable l (rs ++ [r]) := by
  induction rs generalizing l with
  | nil => exact ⟨hbase, hnew, trivial⟩
  | cons a rs ih =>
      obtain ⟨hbase', hnew', hrest⟩ := h
      exact ⟨hbase', hnew', ih hrest hbase hnew⟩

/-- A request that could be performed at once can be moved to the front, past requests on other bases. -/
theorem Performable.front {r : Request α} {before after : List (Request α)}
    (h : Performable l (before ++ r :: after)) (hr : r.base ∈ l)
    (hother : ∀ a ∈ before, a.base ≠ r.base) :
    r.new ∉ l ∧ Performable (insertAfter r.base r.new l) (before ++ after) ∧
      insertAll l (before ++ r :: after) = insertAll (insertAfter r.base r.new l) (before ++ after) := by
  induction before generalizing l with
  | nil =>
      obtain ⟨-, hnew, hrest⟩ := h
      exact ⟨hnew, hrest, rfl⟩
  | cons a before ih =>
      obtain ⟨hbase, hnew, hrest⟩ := h
      have hr' : r.base ∈ insertAfter a.base a.new l := (mem_insertAfter hbase).mpr (Or.inr hr)
      obtain ⟨hnotin, hperf, heq⟩ := ih hrest hr' fun c hc => hother c (List.mem_cons_of_mem a hc)
      rw [mem_insertAfter hbase, not_or] at hnotin
      have hcomm : insertAfter r.base r.new (insertAfter a.base a.new l) =
          insertAfter a.base a.new (insertAfter r.base r.new l) := by
        apply insertAfter_comm (Ne.symm (hother a List.mem_cons_self))
        · rintro hra
          exact hnotin.2 (hra ▸ hbase)
        · rintro har
          exact hnew (har ▸ hr)
      rw [hcomm] at hperf heq
      refine ⟨hnotin.2, ⟨?_, ?_, hperf⟩, heq⟩
      · exact (mem_insertAfter hr).mpr (Or.inr hbase)
      · rw [mem_insertAfter hr, not_or]
        exact ⟨Ne.symm hnotin.1, hnew⟩

/-- **The schedule does not matter**; the induction moves the first request of the one to the front of the other. -/
theorem insertAll_eq {rs rs' : List (Request α)} (h : Performable l rs) (h' : Performable l rs')
    (hperm : rs.Perm rs') (hsame : ∀ b, rs.filter (fun r => r.base = b) = rs'.filter fun r => r.base = b) :
    insertAll l rs = insertAll l rs' := by
  induction rs generalizing l rs' with
  | nil =>
      obtain rfl : rs' = [] := hperm.nil_eq.symm
      rfl
  | cons r rs ih =>
      obtain ⟨hbase, -, hrest⟩ := h
      have hfirst : rs'.filter (fun a => a.base = r.base) = r :: rs.filter fun a => a.base = r.base := by
        rw [← hsame r.base, List.filter_cons_of_pos (by simp)]
      obtain ⟨before, after, rfl, hother, -, hafter⟩ := List.filter_eq_cons_iff.mp hfirst
      obtain ⟨-, hperf, heq⟩ := h'.front hbase fun a ha => by simpa using hother a ha
      rw [heq]
      refine ih hrest hperf ?_ ?_
      · exact (List.perm_cons r).mp (hperm.trans List.perm_middle)
      · intro b
        have hb := hsame b
        rw [List.filter_append] at hb ⊢
        by_cases hrb : r.base = b
        · subst hrb
          have hnone : before.filter (fun a => a.base = r.base) = [] := List.filter_eq_nil_iff.mpr hother
          rw [hnone, hafter, List.nil_append]
        · rw [List.filter_cons_of_neg (by simpa using hrb), List.filter_cons_of_neg (by simpa using hrb)] at hb
          exact hb

end FOrder
