import FOrder.OrderMaint.Blist

/-!
# `OrderMaint.Label` — `get_new_label` in the arithmetic of 64 bits

`Blist` counts with numbers and wraps at the end of the list only. Here `get_new_label` is computed in `label_t`, step
by step, and turns out to be the same function: the halves never carry over, and the wrap at the end of the list is the
one place where `0` comes out of the addition itself.
-/

namespace FOrder.OrderMaint

/-- `label_t`. -/
abbrev Label := BitVec 64

/-- `get_new_label` in 64 bits; `none` is a failed assertion. -/
def getNewLabelWord (base : Label) (next : Option Label) : Option Label :=
  if next.all fun label => base < label then
    let nextLabel := next.getD (BitVec.allOnes 64)
    let lab := (base >>> 1) + (nextLabel >>> 1)
    -- correction for two odd labels
    let lab := if base &&& nextLabel &&& 1 = 1 then lab + 1 else lab
    -- correction for the end of the list
    let lab := if next = none then lab + 1 else lab
    let lab := if base = lab then 0 else lab
    if lab = 0 ∨ base < lab then some lab else none
  else none

/-- A label strictly between the base and what ends its room. -/
def Between (base : Nat) (next : Option Nat) (lab : Nat) : Prop := base < lab ∧ lab < bound next

/-! ## Words and numbers

Sums of halves stay below `2 ^ 64`, so word arithmetic and arithmetic on numbers agree up to the end of the list,
where the one addition that may wrap is made. -/

/-- The test of the correction: both labels are odd. -/
theorem both_odd (x y : Label) : x &&& y &&& 1 = 1 ↔ x.toNat % 2 = 1 ∧ y.toNat % 2 = 1 := by
  rw [← Nat.and_mod_two_eq_one, ← Nat.and_one_is_mod, ← BitVec.toNat_and, ← BitVec.toNat_inj, BitVec.toNat_and]
  rfl

/-- The average of two labels does not leave the 64 bits. -/
theorem toNat_average (x y : Label) :
    (if x &&& y &&& 1 = 1 then (x >>> 1) + (y >>> 1) + 1 else (x >>> 1) + (y >>> 1)).toNat =
      average x.toNat y.toNat := by
  have hx := x.isLt
  have hy := y.isLt
  have hsum : ((x >>> 1) + (y >>> 1)).toNat = x.toNat / 2 + y.toNat / 2 := by
    rw [BitVec.toNat_add, BitVec.toNat_ushiftRight, BitVec.toNat_ushiftRight, Nat.shiftRight_eq_div_pow,
      Nat.shiftRight_eq_div_pow]
    omega
  unfold average
  by_cases hodd : x &&& y &&& 1 = 1
  · rw [if_pos hodd, if_pos ((both_odd x y).mp hodd), BitVec.toNat_add, hsum]
    show (x.toNat / 2 + y.toNat / 2 + 1) % 2 ^ 64 = _
    omega
  · rw [if_neg hodd, if_neg fun h => hodd ((both_odd x y).mpr h), hsum]

/-- **The two agree.** By cases: a next label or the end of the list, and whether the correction for two odd labels
    is made. -/
theorem toNat_getNewLabelWord (base : Label) (next : Option Label) :
    (getNewLabelWord base next).map BitVec.toNat = getNewLabel base.toNat (next.map BitVec.toNat) := by
  have hpos : ∀ lab : Label, lab = 0 ↔ lab.toNat = 0 := fun lab => BitVec.toNat_inj.symm
  -- what is left to do once the middle is known
  have hlast : ∀ lab : Label, lab.toNat = middle base.toNat (next.map BitVec.toNat) →
      (if (if base = lab then 0 else lab) = 0 ∨ base < (if base = lab then 0 else lab) then
        some (if base = lab then 0 else lab) else none).map BitVec.toNat =
      (let l := if base.toNat = middle base.toNat (next.map BitVec.toNat) then 0
        else middle base.toNat (next.map BitVec.toNat)
      if l = 0 ∨ base.toNat < l then some l else none) := by
    intro lab hlab
    rw [← hlab]
    by_cases heq : base = lab
    · rw [if_pos heq, if_pos (congrArg BitVec.toNat heq)]
      rfl
    · have hne : base.toNat ≠ lab.toNat := fun h => heq (BitVec.toNat_inj.mp h)
      rw [if_neg heq, if_neg hne]
      simp only [BitVec.lt_def, hpos]
      split
      · rfl
      · rfl
  unfold getNewLabelWord getNewLabel
  cases next with
  | none =>
      have hmid := toNat_average base (BitVec.allOnes 64)
      simp only [Option.all_none, if_true, Option.getD_none, Option.map_none] at hlast ⊢
      refine hlast _ ?_
      rw [BitVec.toNat_add, hmid]
      rfl
  | some next =>
      by_cases hlt : base < next
      · have hmid := toNat_average base next
        simp only [Option.all_some, Option.getD_some, Option.map_some, hlt, decide_true, if_true] at hlast ⊢
        rw [if_pos (decide_eq_true (BitVec.lt_def.mp hlt))]
        exact hlast _ hmid
      · have hlt' : ¬base.toNat < next.toNat := fun h => hlt (BitVec.lt_def.mpr h)
        simp [hlt, hlt']

/-! ## The gap

What a refusal means: the room behind the base ends at the next label, or at `2 ^ 64` behind the last one, and there
is a label in between unless the two ends follow each other. -/

/-- The gap is closed when its end follows at once. -/
theorem between_none_iff {base : Nat} {next : Option Nat} (hlt : base < bound next) :
    (¬∃ l, Between base next l) ↔ bound next = base + 1 := by
  constructor
  · intro hnone
    by_contra hne
    exact hnone ⟨base + 1, Nat.lt_succ_self base, by omega⟩
  · rintro hfull ⟨l, hl, hl'⟩
    omega

/-- A closed gap gives `0`, an open one a label inside. -/
theorem getNewLabel_spec {base : Nat} {next : Option Nat} (hlt : base < bound next) (hbound : bound next ≤ 2 ^ 64) :
    ∃ lab, getNewLabel base next = some lab ∧ (lab = 0 ↔ ¬∃ l, Between base next l) ∧
      (lab ≠ 0 → Between base next lab) := by
  rw [between_none_iff hlt]
  by_cases hfull : bound next = base + 1
  · exact ⟨0, getNewLabel_full hfull hbound, by simp [hfull], fun h => absurd rfl h⟩
  · have hroom : base + 2 ≤ bound next := by omega
    obtain ⟨hmid, hmid', -⟩ := (middle_spec hlt hbound).2 hroom
    refine ⟨middle base next, getNewLabel_room hroom hbound, ?_, fun _ => ⟨hmid, hmid'⟩⟩
    have hne : middle base next ≠ 0 := Nat.ne_of_gt (Nat.zero_lt_of_lt hmid)
    simp [hfull, hne]

/-- An insert behind one of the nodes of a list. -/
theorem insertAt_between (n : Name) {pre rest : List BlNode} {b : BlNode} (h : Labelled (pre ++ b :: rest))
    (hb : b.name ∉ pre.map BlNode.name) :
    (insertAt b.name n (pre ++ b :: rest) = some none ↔ ¬∃ l, Between b.label (rest.head?.map BlNode.label) l) ∧
      ((∃ l, Between b.label (rest.head?.map BlNode.label) l) →
        ∃ lab, Between b.label (rest.head?.map BlNode.label) lab ∧
          insertAt b.name n (pre ++ b :: rest) = some (some (pre ++ b :: ⟨n, lab⟩ :: rest))) := by
  induction pre with
  | nil =>
      have h : Labelled (b :: rest) := h
      obtain ⟨hlt, hbound⟩ := h.bound_head
      rw [List.nil_append]
      by_cases hfull : bound (rest.head?.map BlNode.label) = b.label + 1
      · have hclosed := (between_none_iff hlt).mpr hfull
        exact ⟨iff_of_true (insertAt_full h rfl hfull) hclosed, fun hopen => absurd hopen hclosed⟩
      · have hopen := not_not.mp fun hclosed => hfull ((between_none_iff hlt).mp hclosed)
        have hroom : b.label + 2 ≤ bound (rest.head?.map BlNode.label) := by omega
        have hhere := insertAt_here (n := n) h rfl hroom
        obtain ⟨hmid, hmid', -⟩ := (middle_spec hlt hbound).2 hroom
        refine ⟨iff_of_false ?_ (not_not.mpr hopen), fun _ => ⟨_, ⟨hmid, hmid'⟩, hhere⟩⟩
        rw [hhere]
        exact fun heq => nomatch heq
  | cons c pre ih =>
      rw [List.map_cons, List.mem_cons, not_or] at hb
      have h : Labelled (c :: (pre ++ b :: rest)) := h
      obtain ⟨hrefused, hinserted⟩ := ih h.tail hb.2
      rw [List.cons_append, insertAt_there (Ne.symm hb.1)]
      refine ⟨?_, ?_⟩
      · rw [← hrefused]
        cases insertAt b.name n (pre ++ b :: rest) with
        | none => simp
        | some r => cases r <;> simp
      · intro hopen
        obtain ⟨lab, hlab, heq⟩ := hinserted hopen
        exact ⟨lab, hlab, by rw [heq]; rfl⟩

/-- **The label in the middle is exact** at both ends of the 64 bits: `get_new_label` gives `0` exactly when there is
no label between, and else one between; so `bl_insert` refuses exactly when the gap is closed, and its assertions
hold. -/
theorem newLabel_exact :
    (∀ (base : Label) (next : Option Label), (∀ s ∈ next, base < s) →
      ∃ lab, getNewLabelWord base next = some lab ∧
        (lab = 0 ↔ ¬∃ l, Between base.toNat (next.map BitVec.toNat) l) ∧
        (lab ≠ 0 → Between base.toNat (next.map BitVec.toNat) lab.toNat)) ∧
      ∀ (n : Name) (pre : List BlNode) (b : BlNode) (rest : List BlNode), Labelled (pre ++ b :: rest) →
        b.name ∉ pre.map BlNode.name →
          (insertAt b.name n (pre ++ b :: rest) = some none ↔
            ¬∃ l, Between b.label (rest.head?.map BlNode.label) l) ∧
          ((∃ l, Between b.label (rest.head?.map BlNode.label) l) →
            ∃ lab, Between b.label (rest.head?.map BlNode.label) lab ∧
              insertAt b.name n (pre ++ b :: rest) = some (some (pre ++ b :: ⟨n, lab⟩ :: rest))) := by
  refine ⟨?_, fun n pre b rest h hb => insertAt_between n h hb⟩
  intro base next hnext
  have hlt : base.toNat < bound (next.map BitVec.toNat) ∧ bound (next.map BitVec.toNat) ≤ 2 ^ 64 := by
    cases next with
    | none => exact ⟨base.isLt, Nat.le_refl _⟩
    | some s => exact ⟨BitVec.lt_def.mp (hnext s rfl), Nat.le_of_lt s.isLt⟩
  obtain ⟨lab, hlab, hzero, hbetween⟩ := getNewLabel_spec hlt.1 hlt.2
  rw [← toNat_getNewLabelWord] at hlab
  obtain ⟨word, hword, rfl⟩ := Option.map_eq_some_iff.mp hlab
  have hpos : word = 0 ↔ word.toNat = 0 := BitVec.toNat_inj.symm
  exact ⟨word, hword, hpos.trans hzero, fun hne => hbetween fun h => hne (hpos.mpr h)⟩

/-- Behind the last label there is no room; one label before it there is. -/
theorem newLabel_exact_lastLabels :
    (∃ lab, getNewLabelWord (BitVec.allOnes 64) none = some lab ∧
      (lab = 0 ↔ ¬∃ l, Between (2 ^ 64 - 1) none l) ∧ (lab ≠ 0 → Between (2 ^ 64 - 1) none lab.toNat)) ∧
      ∃ lab, Between (2 ^ 64 - 2) none lab ∧
        insertAt 7 9 [⟨7, 2 ^ 64 - 2⟩] = some (some [⟨7, 2 ^ 64 - 2⟩, ⟨9, lab⟩]) := by
  refine ⟨newLabel_exact.1 (BitVec.allOnes 64) none (fun s hs => nomatch hs), ?_⟩
  refine (newLabel_exact.2 9 [] ⟨7, 2 ^ 64 - 2⟩ [] ⟨List.pairwise_singleton _ _, ?_⟩ (List.not_mem_nil)).2 ?_
  · intro c hc
    rw [List.mem_singleton.mp hc]
    decide
  · exact ⟨2 ^ 64 - 1, by decide, by decide⟩

end FOrder.OrderMaint
