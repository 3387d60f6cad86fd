import FOrder.OrderMaint.Rebuild

/-!
# `OrderMaint.Rebalance` — choosing the subtrees to rebuild

`rebalance` goes down along the marked nodes and rebuilds where a child is too dense. A node it goes down to is
below a threshold that is never above one, so it has room: where its capacity is computed with a shift that C
defines the capacity is the size of its range, and where it is not the range has more labels than there are leaves.

Two things have to hold of every marked node that the recursion comes to, and `Roomy` states both: its range has a
label for each of its leaves, so that `rebuild` succeeds, and the assertion on its capacity holds.

A leaf that has been split is special. Its level is `MAX_LEVEL`, so the code gives it the capacity one, but when it
is rebuilt it gets the whole range of its depth. It is only left for such a rebuild when it is not too heavy, so
when the threshold, which depends on its level and the recorded height, is two or more; then the tree is low
(`height_of_light_leaf`), and the range is large.

Capacities are shifts of an `int`, which C does not define from 31 on. The model takes the value of the undefined
shift as a parameter `shl`, and nothing here depends on it: near the root, where the shift is undefined, any count
of leaves below `2 ^ 31` fits.
-/

namespace FOrder.OrderMaint

variable {shl : Nat → Nat} {height : Nat}

/-! ## Density -/

/-- The threshold rises from three quarters at the root to one at the recorded height. -/
theorem threshold_le_one {n : TlNode} (hlevel : n.level ≤ height) : threshold n height ≤ 1 := by
  unfold threshold
  have hdiv : (n.level : ℚ) / (height : ℚ) ≤ 1 := by
    apply div_le_one_of_le₀
    · exact_mod_cast hlevel
    · exact_mod_cast Nat.zero_le height
  linarith

/-- A marked node that is not too heavy has fewer leaves than its capacity, when it is not below the recorded
height. -/
theorem numLeaves_lt_capacity {n : TlNode} (hflag : n.needsRebalance = true) (hlight : tooHeavy shl n height = false)
    (hlevel : n.level ≤ height) : n.numLeaves < capacity shl n := by
  have hlt : (n.numLeaves : ℚ) < threshold n height * (capacity shl n : ℚ) := by
    unfold tooHeavy at hlight
    rw [hflag, Bool.true_and, decide_eq_false_iff_not, not_le] at hlight
    exact hlight
  have hle : threshold n height * (capacity shl n : ℚ) ≤ (capacity shl n : ℚ) := by
    have hcap : (0 : ℚ) ≤ (capacity shl n : ℚ) := by exact_mod_cast Nat.zero_le _
    calc threshold n height * (capacity shl n : ℚ) ≤ 1 * (capacity shl n : ℚ) :=
          mul_le_mul_of_nonneg_right (threshold_le_one hlevel) hcap
      _ = (capacity shl n : ℚ) := one_mul _
  exact_mod_cast lt_of_lt_of_le hlt hle

/-- A marked leaf that is not too heavy is one of a low tree. It has two leaves or more and a capacity of one, so
    its density is at least two; the threshold is only that high when the height is small. -/
theorem height_of_light_leaf {n : TlNode} (hflag : n.needsRebalance = true) (hlight : tooHeavy shl n height = false)
    (hlevel : n.level = maxLevel) (htwo : 2 ≤ n.numLeaves) : height ≤ 12 := by
  have hcap : capacity shl n = 1 := by
    unfold capacity
    rw [hlevel, if_neg (by decide), if_pos (by decide)]
    rfl
  have hlt : (n.numLeaves : ℚ) < threshold n height := by
    unfold tooHeavy at hlight
    rw [hflag, Bool.true_and, decide_eq_false_iff_not, not_le, hcap] at hlight
    simpa using hlight
  have htwo : (2 : ℚ) ≤ (n.numLeaves : ℚ) := by exact_mod_cast htwo
  by_contra hhigh
  have hhigh : (13 : ℚ) ≤ (height : ℚ) := by
    have : 13 ≤ height := by omega
    exact_mod_cast this
  have hdiv : (64 : ℚ) / (height : ℚ) ≤ 64 / 13 := by
    apply div_le_div_of_nonneg_left
    · norm_num
    · norm_num
    · exact hhigh
  have hthreshold : threshold n height ≤ 3 / 4 + 1 / 4 * (64 / 13) := by
    unfold threshold
    rw [hlevel]
    have hcast : ((maxLevel : Nat) : ℚ) = 64 := by
      unfold maxLevel
      norm_num
    rw [hcast]
    linarith
  linarith

variable {p : Option TlName} {lo k m d : Nat} {t : Tree}

/-- Room for the leaves of a node the recursion has come to. -/
structure Roomy (shl : Nat → Nat) (k : Nat) (t : Tree) : Prop where
  range : t.root.needsRebalance = true → t.root.numLeaves ≤ 2 ^ k
  capacity : ∀ n l r, t = .node n l r → n.needsRebalance = true → n.numLeaves ≤ capacity shl n

/-- **A child that is not too heavy has room.** The density of the child is below its threshold, so its leaves are
    fewer than its capacity; where the capacity is defined it is the size of the range. -/
theorem roomy_of_light (h : Shaped p lo k t) (hfits : Fits m t) (hk : d + k = maxLevel) (hd : 1 ≤ d)
    (hheight : d + m = height) (htotal : t.root.numLeaves < 2 ^ 31) (hlight : tooHeavy shl t.root height = false) :
    Roomy shl k t := by
  have hmax : maxLevel = 64 := rfl
  match t with
  | .leaf n (.list b) =>
      refine ⟨?_, fun _ _ _ hcontra => nomatch hcontra⟩
      intro hflag
      have hnot : n.needsRebalance = false := ListLeaf.flag h
      have hflag : n.needsRebalance = true := hflag
      rw [hnot] at hflag
      cases hflag
  | .leaf n (.splitNodes ns) =>
      refine ⟨?_, fun _ _ _ hcontra => nomatch hcontra⟩
      intro hflag
      -- a leaf is rebuilt in its own place only when the whole tree is low
      have hlow := height_of_light_leaf hflag hlight (SplitLeaf.level h) (h.several hflag)
      exact Nat.le_trans (h.numLeaves_le hfits) (Nat.pow_le_pow_right (by decide) (by omega))
  | .node n l r =>
      obtain ⟨j, rfl, hinner, -⟩ := h
      have hnum : n.needsRebalance = true → n.numLeaves < capacity shl n := by
        intro hflag
        have hlevel := hinner.level
        exact numLeaves_lt_capacity hflag hlight (by omega)
      refine ⟨?_, ?_⟩
      · intro hflag
        have hlt := hnum hflag
        have htotal : n.numLeaves < 2 ^ 31 := htotal
        have hlevel := hinner.level
        show n.numLeaves ≤ 2 ^ (j + 1)
        unfold capacity at hlt
        rw [if_neg (by omega)] at hlt
        by_cases hshift : maxLevel - n.level ≤ 30
        · rw [if_pos hshift, show maxLevel - n.level = j + 1 by omega] at hlt
          exact Nat.le_of_lt hlt
        · -- here the shift is not defined, and the range is larger than any number of leaves
          have hbig : 2 ^ 31 ≤ 2 ^ (j + 1) := Nat.pow_le_pow_right (by decide) (by omega)
          omega
      · rintro n' l' r' ⟨⟩ hflag
        exact Nat.le_of_lt (hnum hflag)

/-- The whole tree has room, for fewer than `2 ^ 31` leaves. -/
theorem roomy_root (h : Shaped none 0 maxLevel t) (htotal : t.root.numLeaves < 2 ^ 31) :
    Roomy shl maxLevel t := by
  have hbig : 2 ^ 31 ≤ 2 ^ maxLevel := Nat.pow_le_pow_right (by decide) (by decide)
  refine ⟨fun _ => by omega, ?_⟩
  rintro n l r rfl hflag
  obtain ⟨j, hj, hinner, -⟩ := h
  have hlevel := hinner.level
  have htotal : n.numLeaves < 2 ^ 31 := htotal
  unfold capacity maxLabel
  rw [if_pos (by omega)]
  omega

/-! ## The recursion -/

/-- A subtree that is not marked stays as it is. -/
theorem settled_refl {up : Option (TlNode × Bool)} {fresh : TlName} (h : Shaped (upName up) lo k t)
    (hflag : t.root.needsRebalance = false) (hfits : Fits m t) (hnamed : NamedBelow fresh t) :
    Settled up lo k m fresh fresh t t :=
  ⟨h, hflag, rfl, rfl, rfl, hfits, NamesOk.refl hnamed.nodup⟩

/-- Two settled halves under a node that is not rebuilt: the counts add up, the mark is removed, and the names of
    the halves stay apart. -/
theorem Settled.node {up : Option (TlNode × Bool)} {n : TlNode} {j i : Nat} {l r l' r' : Tree}
    {fresh fresh₁ fresh' : TlName} (hinner : Inner (upName up) lo (j + 1) n l r)
    (hl : Settled (some ({ n with needsRebalance := false }, false)) lo j i fresh fresh₁ l l')
    (hr : Settled (some ({ n with needsRebalance := false }, true)) (lo + 2 ^ j) j i fresh₁ fresh' r r')
    (hnamed : NamedBelow fresh (.node n l r)) :
    Settled up lo (j + 1) (i + 1) fresh fresh' (.node n l r)
      (.node { n with needsRebalance := false } l' r') where
  shaped := by
    refine ⟨j, rfl, ⟨hinner.parent, hinner.label, hinner.level, ?_, ?_⟩, hl.shaped, hr.shaped⟩
    · show n.numLeaves = _
      rw [hinner.numLeaves, hl.numLeaves, hr.numLeaves]
    · rw [hl.flag, hr.flag]
      rfl
  flag := rfl
  name := rfl
  numLeaves := rfl
  lists := by
    show (l'.leaves ++ r'.leaves).map Leaf.list = (l.leaves ++ r.leaves).map Leaf.list
    rw [List.map_append, List.map_append]
    show l'.lists ++ r'.lists = l.lists ++ r.lists
    rw [hl.lists, hr.lists]
  fits := ⟨i, rfl, hl.fits, hr.fits⟩
  names := by
    have hnodup := List.nodup_cons.mp hnamed.nodup
    apply NamesOk.cons _ hnodup.1 (hnamed.lt _ List.mem_cons_self)
    exact hl.names.append hr.names hnodup.2 fun x hx => hnamed.lt x (List.mem_cons_of_mem _ hx)

/-- The two halves hang where `rebalance` says. -/
theorem Place.child {up : Option (TlNode × Bool)} {n : TlNode} {j : Nat} {l r : Tree}
    (hplace : Place up lo (j + 1)) (halign : Aligned lo (j + 1)) (hinner : Inner (upName up) lo (j + 1) n l r) :
    Place (some ({ n with needsRebalance := false }, false)) lo j ∧
      Place (some ({ n with needsRebalance := false }, true)) (lo + 2 ^ j) j := by
  have hleft : rangeLeft { n with needsRebalance := false } = lo :=
    rangeLeft_place hplace halign hinner.parent hinner.label hinner.level
  exact ⟨⟨lo, rfl, hinner.label, hinner.level, hleft⟩, ⟨lo, rfl, hinner.label, hinner.level, hleft⟩⟩

/-- **`rebalance`** settles a subtree that has room. The induction is over the tree; what the recursion goes down to
has room because it was not too heavy. -/
theorem rebalance_spec (shl : Nat → Nat) (up : Option (TlNode × Bool)) (fresh : TlName) (h : Shaped (upName up) lo k t)
    (hplace : Place up lo k) (halign : Aligned lo k) (hfits : Fits m t) (hk : d + k = maxLevel)
    (hheight : d + m = height) (htotal : t.root.numLeaves < 2 ^ 31) (hroomy : Roomy shl k t)
    (hnamed : NamedBelow fresh t) :
    ∃ t' fresh', rebalance shl height up t fresh = some (t', fresh') ∧ Settled up lo k m fresh fresh' t t' := by
  induction t generalizing up lo k m d fresh with
  | leaf n below =>
      cases hflag : n.needsRebalance with
      | false =>
          refine ⟨.leaf n below, fresh, ?_, settled_refl h hflag hfits hnamed⟩
          unfold rebalance
          rw [hflag]
          rfl
      | true =>
          obtain ⟨t', fresh', hrebuild, hsettled⟩ :=
            rebuild_spec h hplace halign hflag (hroomy.range hflag) hfits hnamed
          refine ⟨t', fresh', ?_, hsettled⟩
          unfold rebalance
          rw [if_pos hflag]
          exact hrebuild
  | node n l r ihl ihr =>
      cases hflag : n.needsRebalance with
      | false =>
          refine ⟨.node n l r, fresh, ?_, settled_refl h hflag hfits hnamed⟩
          unfold rebalance
          rw [hflag]
          rfl
      | true =>
          have hcap : n.numLeaves ≤ capacity shl n := hroomy.capacity n l r rfl hflag
          unfold rebalance
          rw [if_pos hflag]
          simp only []
          rw [if_pos (show ({ n with needsRebalance := false } : TlNode).numLeaves ≤
            capacity shl { n with needsRebalance := false } from hcap)]
          cases hheavy : (tooHeavy shl l.root height || tooHeavy shl r.root height) with
          | true =>
              obtain ⟨t', fresh', hrebuild, hsettled⟩ :=
                rebuild_spec h hplace halign hflag (hroomy.range hflag) hfits hnamed
              exact ⟨t', fresh', hrebuild, hsettled⟩
          | false =>
              obtain ⟨hlightl, hlightr⟩ := Bool.or_eq_false_iff.mp hheavy
              obtain ⟨j, rfl, hinner, hl, hr⟩ := h
              obtain ⟨i, rfl, hfitsl, hfitsr⟩ := hfits
              obtain ⟨hplacel, hplacer⟩ := hplace.child halign hinner
              have hnum : n.numLeaves < 2 ^ 31 := htotal
              rw [hinner.numLeaves] at hnum
              have hk' : d + 1 + j = maxLevel := by omega
              have hheight' : d + 1 + i = height := by omega
              have hrooml := roomy_of_light hl hfitsl hk' (Nat.le_add_left 1 d) hheight' (by omega) hlightl
              have hroomr := roomy_of_light hr hfitsr hk' (Nat.le_add_left 1 d) hheight' (by omega) hlightr
              obtain ⟨l', fresh₁, hrl, hsl⟩ := ihl (some ({ n with needsRebalance := false }, false)) fresh hl
                hplacel halign.left hfitsl hk' hheight' (by omega) hrooml hnamed.left
              obtain ⟨r', fresh', hrr, hsr⟩ := ihr (some ({ n with needsRebalance := false }, true)) fresh₁ hr
                hplacer halign.right hfitsr hk' hheight' (by omega) hroomr (hnamed.right hsl.names.le)
              refine ⟨.node { n with needsRebalance := false } l' r', fresh', ?_, hsl.node hinner hsr hnamed⟩
              simp only [Bool.false_eq_true, if_false, hrl, hrr, Option.bind_eq_bind, Option.bind_some]

end FOrder.OrderMaint
