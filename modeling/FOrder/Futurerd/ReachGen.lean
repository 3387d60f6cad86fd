import FOrder.Futurerd.Bitvector
import FOrder.Lib.Sink

/-!
# `Futurerd.ReachGen` — the reachability matrix

`reach_gen.cpp`: for each node a bit vector of the nodes that reach it. `add_edge` ors the row of `from` into the
row of `to` and does nothing for what lies behind `to`, so it keeps a transitive closure as long as nothing does.

`has_addEdge` says what `add_edge` does to the entries, whatever leaves `to`. From this the closure follows, for an
edge into a node that has no edges yet (`closed_addEdge`, by `PathIn` of `Lib.Sink`): a path over the new edge ends
with it. The code asks for this in a comment, and nothing checks it; `Calls` is the calls that keep to it.
MultiBags+ does not always do so: `Futurerd.NonblockSets` builds on `has_addEdge`, not on the closure.

The entry of a node for itself is not looked at: `precedes` answers before it reads any row.
-/

namespace FOrder.Futurerd

/-- `reach::general`; `data[y]` holds the nodes that reach `y`. -/
structure General where
  data : List Bitvector
  deriving DecidableEq

namespace General

/-- `add_node`. -/
def addNode (m : General) : General × Nat := (⟨m.data ++ [.new]⟩, m.data.length)

/-- `general()`: node `0` is fake. -/
def new : General := (addNode ⟨[]⟩).1

/-- `precedes`. -/
def precedes (m : General) (x y : Nat) : Option Bool :=
  if x = y then some true
  else do
    let row ← m.data[y]?
    some (row.get x)

/-- `for i < from.num_blocks: to[i] |= from[i]`, when `to` has room. The `i` of the code is an `int`: it counts the blocks
    of up to `2 ^ 37` nodes. -/
def orInto : List Block → List Block → List Block
  | b :: bs, c :: cs => (b ||| c) :: orInto bs cs
  | bs, [] => bs
  | [], _ :: _ => []

/-- The row of `to` after the rows have been joined. -/
def joinRow (fromRow toRow : Bitvector) : Bitvector :=
  if toRow.data ≠ none then
    let toRow := toRow.resize fromRow.numBlocks
    ⟨some (orInto toRow.blocks fromRow.blocks)⟩
  else fromRow.copy

/-- `add_edge`. -/
def addEdge (m : General) (src dst : Nat) : Option General :=
  if src = dst then some m
  else do
    let fromRow ← m.data[src]?
    let toRow ← m.data[dst]?
    let row ← (joinRow fromRow toRow).set src
    some ⟨m.data.set dst row⟩

/-- `precedes` looks up the row of its second argument only. -/
theorem precedes_returns {m : General} {x y : Nat} (hy : y < m.data.length) : ∃ answer, m.precedes x y = some answer := by
  unfold precedes
  split
  · exact ⟨true, rfl⟩
  · exact ⟨m.data[y].get x, by simp [List.getElem?_eq_getElem hy]⟩

/-! ## Rows -/

/-- The loop of `add_edge`, block by block; blocks that are not there count as zero. -/
theorem getElem?_orInto {bs cs : List Block} (h : cs.length ≤ bs.length) (i : Nat) :
    (((orInto bs cs)[i]?).getD 0) = (bs[i]?).getD 0 ||| (cs[i]?).getD 0 := by
  induction bs generalizing cs i with
  | nil =>
      cases cs with
      | nil => simp [orInto]
      | cons c cs => cases h
  | cons b bs ih =>
      cases cs with
      | nil => simp [orInto]
      | cons c cs =>
          cases i with
          | zero => simp [orInto]
          | succ i =>
              have := ih (Nat.le_of_succ_le_succ h) i
              simpa [orInto] using this

/-- Joining rows is union. -/
theorem get_joinRow (fromRow toRow : Bitvector) (z : Nat) :
    (joinRow fromRow toRow).get z = (toRow.get z || fromRow.get z) := by
  unfold joinRow
  split
  · have hle : fromRow.blocks.length ≤ (toRow.resize fromRow.numBlocks).blocks.length := by
      show fromRow.numBlocks ≤ (toRow.resize fromRow.numBlocks).numBlocks
      rw [Bitvector.numBlocks_resize]
      exact Nat.le_max_right _ _
    rw [Bitvector.get_eq, ← Bitvector.get_resize fromRow.numBlocks, Bitvector.get_eq, Bitvector.get_eq]
    show (((orInto _ _)[z / 32]?).getD 0).getLsbD _ = _
    rw [getElem?_orInto hle, BitVec.getLsbD_or]
  · rename_i hnone
    have htoRow : toRow.get z = false := by
      have hdata : toRow.data = none := by simpa using hnone
      rw [Bitvector.get_eq, Bitvector.blocks, hdata]
      simp
    rw [htoRow, Bitvector.get_copy, Bool.false_or]

/-! ## Entries -/

/-- The entry of `x` in the row of `y`. -/
def Has (m : General) (x y : Nat) : Prop := ∃ row, m.data[y]? = some row ∧ row.get x = true

/-- A yes is about the node itself or an entry. -/
theorem has_of_precedes {m : General} {x y : Nat} (h : m.precedes x y = some true) : x = y ∨ m.Has x y := by
  unfold precedes at h
  split at h
  · rename_i heq
    exact Or.inl heq
  · obtain ⟨row, hrow, hget⟩ := Option.bind_eq_some_iff.mp h
    exact Or.inr ⟨row, hrow, Option.some.inj hget⟩

/-- Entries are in rows. -/
theorem Has.lt {m : General} {x y : Nat} (h : m.Has x y) : y < m.data.length := by
  obtain ⟨row, hrow, -⟩ := h
  exact (List.getElem?_eq_some_iff.mp hrow).1

/-- Every node has a row. -/
theorem length_addNode {m : General} : m.addNode.1.data.length = m.data.length + 1 := List.length_append

/-- A new row is empty. -/
theorem has_addNode {m : General} {x y : Nat} : m.addNode.1.Has x y ↔ m.Has x y := by
  unfold Has
  show (∃ row, (m.data ++ [Bitvector.new])[y]? = some row ∧ _) ↔ _
  rcases Nat.lt_trichotomy y m.data.length with hy | rfl | hy
  · rw [List.getElem?_append_left hy]
  · rw [List.getElem?_eq_none (Nat.le_refl _), List.getElem?_concat_length]
    constructor
    · rintro ⟨row, hrow, hget⟩
      obtain rfl : Bitvector.new = row := Option.some.inj hrow
      cases hget
    · rintro ⟨row, hrow, -⟩
      cases hrow
  · rw [List.getElem?_eq_none (Nat.le_of_lt hy), List.getElem?_eq_none (by simp; omega)]

/-- `add_edge` makes no rows. -/
theorem length_addEdge {m m' : General} {src dst : Nat} (h : m.addEdge src dst = some m') :
    m'.data.length = m.data.length := by
  unfold addEdge at h
  split at h
  · obtain rfl := Option.some.inj h
    rfl
  · obtain ⟨fromRow, -, h⟩ := Option.bind_eq_some_iff.mp h
    obtain ⟨toRow, -, h⟩ := Option.bind_eq_some_iff.mp h
    obtain ⟨row, -, h⟩ := Option.bind_eq_some_iff.mp h
    obtain rfl := Option.some.inj h
    exact List.length_set

/-- **The entries after `add_edge`**, whatever leaves `dst`. -/
theorem has_addEdge {m m' : General} {src dst : Nat} (h : m.addEdge src dst = some m')
    (hsize : m.data.length ≤ 2 ^ 64) (x y : Nat) :
    m'.Has x y ↔ m.Has x y ∨ (y = dst ∧ src ≠ dst ∧ (x = src ∨ m.Has x src)) := by
  unfold addEdge at h
  split at h
  · rename_i hsame
    obtain rfl := Option.some.inj h
    simp [hsame]
  · rename_i hne
    obtain ⟨fromRow, hfrom, h⟩ := Option.bind_eq_some_iff.mp h
    obtain ⟨toRow, hto, h⟩ := Option.bind_eq_some_iff.mp h
    obtain ⟨row, hset, h⟩ := Option.bind_eq_some_iff.mp h
    obtain rfl := Option.some.inj h
    have hsrc : src < m.data.length := (List.getElem?_eq_some_iff.mp hfrom).1
    have hdst : dst < m.data.length := (List.getElem?_eq_some_iff.mp hto).1
    obtain ⟨row', hset', -, hget⟩ :=
      Bitvector.set_spec (v := joinRow fromRow toRow) (Nat.lt_of_lt_of_le hsrc hsize)
    obtain rfl : row' = row := Option.some.inj (hset'.symm.trans hset)
    unfold Has
    show (∃ row, (m.data.set dst row')[y]? = some row ∧ _) ↔ _
    by_cases hy : y = dst
    · subst hy
      rw [List.getElem?_set_self hdst, hto, hfrom]
      simp only [Option.some.injEq, exists_eq_left', hget, get_joinRow, Bool.or_eq_true, decide_eq_true_eq, ne_eq,
        hne, not_false_eq_true, true_and]
      rw [or_assoc, or_comm (a := fromRow.get x = true)]
    · rw [List.getElem?_set_ne (Ne.symm hy)]
      simp [hy]

/-! ## The closure -/

/-- The rows hold what reaches each node along `edges`; the entry of a node for itself is not looked at. -/
structure Closed (m : General) (edges : List (Nat × Nat)) : Prop where
  lt : ∀ e ∈ edges, e.1 < m.data.length ∧ e.2 < m.data.length
  row : ∀ (y : Nat) (row : Bitvector), m.data[y]? = some row → ∀ x, x ≠ y →
    (row.get x = true ↔ PathIn edges x y)

variable {m : General} {edges : List (Nat × Nat)}

/-- Paths end at nodes, or have no edge. -/
theorem Closed.lt_of_path (h : Closed m edges) {x y : Nat} (hp : PathIn edges x y) (hne : x ≠ y) :
    x < m.data.length ∧ y < m.data.length := by
  induction hp with
  | refl => exact absurd rfl hne
  | @tail u v _ huv ih =>
      have hlt := h.lt _ huv
      by_cases hu : x = u
      · subst hu
        exact hlt
      · exact ⟨(ih hu).1, hlt.2⟩

/-- Before the first call: one node, and no edges. -/
theorem closed_new : Closed new [] where
  lt := by
    intro e he
    cases he
  row := by
    intro y row hrow x hne
    have hempty : row = .new := by
      have hmem := List.mem_of_getElem? hrow
      simpa [new, addNode] using hmem
    subst hempty
    constructor
    · intro hget
      cases hget
    · intro hp
      cases hp with
      | refl => exact absurd rfl hne
      | tail _ he => cases he

/-- A new node has no path to it, nor from it. -/
theorem closed_addNode (h : Closed m edges) : Closed m.addNode.1 edges where
  lt := by
    intro e he
    have hlt := h.lt e he
    show e.1 < (m.data ++ [_]).length ∧ e.2 < (m.data ++ [_]).length
    rw [List.length_append]
    exact ⟨Nat.lt_add_right _ hlt.1, Nat.lt_add_right _ hlt.2⟩
  row := by
    intro y row hrow x hne
    have hrow : (m.data ++ [Bitvector.new])[y]? = some row := hrow
    by_cases hy : y < m.data.length
    · rw [List.getElem?_append_left hy] at hrow
      exact h.row y row hrow x hne
    · rw [List.getElem?_append_right (Nat.le_of_not_lt hy)] at hrow
      have hempty : row = .new := by
        have hmem := List.mem_of_getElem? hrow
        simpa using hmem
      subst hempty
      constructor
      · intro hget
        cases hget
      · intro hp
        exact absurd (h.lt_of_path hp hne).2 hy

/-- **An edge into a sink keeps the closure.** -/
theorem closed_addEdge (h : Closed m edges) (hsize : m.data.length ≤ 2 ^ 64) {src dst : Nat}
    (hsrc : src < m.data.length) (hdst : dst < m.data.length) (hsink : IsSink edges dst) :
    ∃ m', m.addEdge src dst = some m' ∧ m'.data.length = m.data.length ∧
      Closed m' (edges ++ [(src, dst)]) := by
  have hlt : ∀ e ∈ edges ++ [(src, dst)], e.1 < m.data.length ∧ e.2 < m.data.length := by
    intro e he
    rcases List.mem_append.mp he with hold | hnew
    · exact h.lt e hold
    · obtain rfl : e = (src, dst) := by simpa using hnew
      exact ⟨hsrc, hdst⟩
  unfold addEdge
  by_cases hsame : src = dst
  · subst hsame
    refine ⟨m, by rw [if_pos rfl], rfl, hlt, ?_⟩
    intro y row hrow x hne
    rw [h.row y row hrow x hne, pathIn_snoc hsink]
    constructor
    · exact Or.inl
    · rintro (hp | ⟨rfl, hp⟩)
      · exact hp
      · exact hp
  · obtain ⟨fromRow, hfrom⟩ : ∃ row, m.data[src]? = some row := ⟨_, List.getElem?_eq_getElem hsrc⟩
    obtain ⟨toRow, hto⟩ : ∃ row, m.data[dst]? = some row := ⟨_, List.getElem?_eq_getElem hdst⟩
    obtain ⟨row, hset, -, hget⟩ :=
      Bitvector.set_spec (v := joinRow fromRow toRow) (Nat.lt_of_lt_of_le hsrc hsize)
    refine ⟨⟨m.data.set dst row⟩, ?_, List.length_set, ?_, ?_⟩
    · rw [if_neg hsame, hfrom, hto]
      simp only [Option.bind_eq_bind, Option.bind_some, hset]
    · intro e he
      show e.1 < (m.data.set dst row).length ∧ e.2 < (m.data.set dst row).length
      rw [List.length_set]
      exact hlt e he
    · intro y row' hrow' x hne
      have hrow' : (m.data.set dst row)[y]? = some row' := hrow'
      rw [pathIn_snoc hsink]
      by_cases hy : y = dst
      · subst hy
        rw [List.getElem?_set_self hdst] at hrow'
        obtain rfl : row = row' := Option.some.inj hrow'
        -- what reaches `to` now: what reached it, what reaches `from`, and `from`
        rw [hget, get_joinRow, Bool.or_eq_true, Bool.or_eq_true, decide_eq_true_eq, h.row y toRow hto x hne]
        by_cases hx : x = src
        · subst hx
          simp [PathIn.refl]
        · rw [h.row src fromRow hfrom x hx]
          simp [hx]
      · rw [List.getElem?_set_ne (Ne.symm hy)] at hrow'
        rw [h.row y row' hrow' x hne]
        simp [hy]

/-- What a closed matrix answers. -/
theorem Closed.precedes (h : Closed m edges) (x : Nat) {y : Nat} (hy : y < m.data.length) :
    ∃ answer, m.precedes x y = some answer ∧ (answer = true ↔ PathIn edges x y) := by
  unfold General.precedes
  by_cases hxy : x = y
  · subst hxy
    refine ⟨true, by rw [if_pos rfl], ?_⟩
    simp [PathIn.refl]
  · obtain ⟨row, hrow⟩ : ∃ row, m.data[y]? = some row := ⟨_, List.getElem?_eq_getElem hy⟩
    refine ⟨row.get x, ?_, h.row y row hrow x hxy⟩
    rw [if_neg hxy, hrow]
    rfl

/-! ## Calls -/

/-- A call that changes the matrix. -/
inductive Op where
  | addNode
  | addEdge (src dst : Nat)
  deriving DecidableEq

/-- One call. -/
def step (m : General) : Op → Option General
  | .addNode => some m.addNode.1
  | .addEdge src dst => m.addEdge src dst

/-- The calls, on the matrix `general()` makes. -/
def run (ops : List Op) : Option General := ops.foldlM step new

/-- Calls that keep to the assumption of `add_edge`: `n` is the number of ids they have made, `edges` the edges
they have added. -/
inductive Calls : List Op → Nat → List (Nat × Nat) → Prop where
  | nil : Calls [] 1 []
  | addNode {ops n edges} : Calls ops n edges → Calls (ops ++ [.addNode]) (n + 1) edges
  | addEdge {ops n edges src dst} : Calls ops n edges → src < n → dst < n → IsSink edges dst →
      Calls (ops ++ [.addEdge src dst]) n (edges ++ [(src, dst)])

/-- Calls are made one after the other. -/
theorem run_append (ops : List Op) (op : Op) : run (ops ++ [op]) = (run ops).bind fun m => step m op := by
  unfold run
  rw [List.foldlM_append]
  cases ops.foldlM step new with
  | none => rfl
  | some m => simp

/-- **The calls run through**, and the matrix is the closure of the edges. -/
theorem closed_run {ops : List Op} {n : Nat} (hcalls : Calls ops n edges) (hn : n ≤ 2 ^ 64) :
    ∃ m, run ops = some m ∧ m.data.length = n ∧ Closed m edges := by
  induction hcalls with
  | nil => exact ⟨new, rfl, rfl, closed_new⟩
  | addNode _ ih =>
      obtain ⟨m, hrun, hlen, hclosed⟩ := ih (Nat.le_of_succ_le hn)
      refine ⟨m.addNode.1, ?_, ?_, closed_addNode hclosed⟩
      · rw [run_append, hrun]
        rfl
      · show (m.data ++ [_]).length = _
        rw [List.length_append, hlen]
        rfl
  | addEdge _ hsrc hdst hsink ih =>
      obtain ⟨m, hrun, hlen, hclosed⟩ := ih hn
      subst hlen
      obtain ⟨m', hstep, hlen', hclosed'⟩ := closed_addEdge hclosed hn hsrc hdst hsink
      refine ⟨m', ?_, hlen', hclosed'⟩
      rw [run_append, hrun]
      exact hstep

/-- **The matrix is the transitive closure**: `precedes(x, y)` holds of two ids exactly when they are the same or
the edges added so far contain a path. Ids are 64-bit. -/
theorem precedes_iff_path {ops : List Op} {n : Nat} (hcalls : Calls ops n edges) (hn : n ≤ 2 ^ 64) :
    ∃ m, run ops = some m ∧ m.data.length = n ∧ ∀ x y, x < n → y < n →
      ∃ answer, m.precedes x y = some answer ∧
        (answer = true ↔ x = y ∨ Relation.TransGen (fun u v => (u, v) ∈ edges) x y) := by
  obtain ⟨m, hrun, hlen, hclosed⟩ := closed_run hcalls hn
  refine ⟨m, hrun, hlen, ?_⟩
  intro x y _ hy
  obtain ⟨answer, hanswer, hiff⟩ := hclosed.precedes x (hlen ▸ hy)
  refine ⟨answer, hanswer, hiff.trans ?_⟩
  rw [PathIn, Relation.reflTransGen_iff_eq_or_transGen, eq_comm]

/-- Two edges in a row: `1` reaches `3`. -/
theorem precedes_iff_path_chain :
    ∃ m, run [.addNode, .addNode, .addNode, .addEdge 1 2, .addEdge 2 3] = some m ∧
      m.precedes 1 3 = some true ∧ m.precedes 3 1 = some false := by
  have hcalls : Calls [.addNode, .addNode, .addNode, .addEdge 1 2, .addEdge 2 3] 4 [(1, 2), (2, 3)] := by
    refine .addEdge (.addEdge (.addNode (.addNode (.addNode .nil))) (by decide) (by decide) ?_)
      (by decide) (by decide) ?_
    · intro z hz
      cases hz
    · intro z hz
      simp at hz
  obtain ⟨m, hrun, -, hprecedes⟩ := precedes_iff_path hcalls (by decide)
  refine ⟨m, hrun, ?_, ?_⟩
  · obtain ⟨answer, hanswer, hiff⟩ := hprecedes 1 3 (by decide) (by decide)
    rw [hanswer, hiff.mpr]
    exact Or.inr (.tail (.single (b := 2) (by simp)) (by simp))
  · have hrow : (run [.addNode, .addNode, .addNode, .addEdge 1 2, .addEdge 2 3]).bind
        (fun m => m.precedes 3 1) = some false := by decide
    rw [hrun] at hrow
    exact hrow

end General
end FOrder.Futurerd
