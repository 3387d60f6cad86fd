import FOrder.Rdtool.HashFormed
import Mathlib.Algebra.GroupWithZero.Nat

/-!
# `Rdtool.HashMerge` — the loops that make a list

Whatever the loops meet, they store one element after the other, so that what a constructor does is said by the
elements in their order and by how many nodes were written for merged groups. For well-formed lists the elements are
those of `mergeChains` and `insertChain`, whose ids grow, and the list that is made is well formed.

`Building.Did` is the effect of a loop, or of a part of one, and composes (`Did.trans`). The loops are given chains
to walk along, not well-formed lists: `arena_exact` asks how much is written by a call that does not fail, whatever
the lists are.
-/

namespace FOrder.Rdtool

/-! ## What a loop does

`Did` counts what is written and lists what is stored, in order. It says nothing about the groups being sorted or the
ids growing, so that it also holds for lists that are not well formed; and two loops after each other do what the two
lists of elements one after the other say. -/

/-- The elements `es` were stored, in this order, and `n` nodes were written at the worker's next free indices. -/
structure Building.Did (b b' : Building) (es : List HashElement) (n : Nat) : Prop where
  table : b'.table = b.table.linkAll es
  memory : b'.memory = { b.memory with current := b.memory.current + n }
  written : b'.written = b.written ++ List.range' b.memory.current n

variable {b b' b'' : Building} {es es' : List HashElement} {n n' : Nat} {h h₁ h₂ : Hash}
  {w w₁ w₂ : List (Nat × HashElement)} {p p₁ p₂ : Option Nat} {fuel : Nat}

/-- Nothing was stored. -/
theorem Building.Did.refl (b : Building) : b.Did b [] 0 :=
  ⟨rfl, rfl, (List.append_nil _).symm⟩

/-- One element, whose group is there already. -/
theorem Building.did_link (b : Building) (e : HashElement) : b.Did (b.link e) [e] 0 :=
  ⟨rfl, rfl, (List.append_nil _).symm⟩

/-- One element, whose group is written for it. -/
theorem Building.did_alloc (b : Building) (group : List Node) (e : HashElement) :
    b.Did ((b.alloc group).link e) [e] group.length :=
  ⟨rfl, rfl, rfl⟩

/-- One after the other. -/
theorem Building.Did.trans (h : b.Did b' es n) (h' : b'.Did b'' es' n') : b.Did b'' (es ++ es') (n + n') where
  table := by
    rw [h'.table, h.table, Table.linkAll, Table.linkAll, Table.linkAll, List.foldl_append]
  memory := by
    rw [h'.memory, h.memory, Nat.add_assoc]
  written := by
    rw [h'.written, h.written, h.memory, List.append_assoc, List.range'_append_1]

/-- The second and the third loop store what is left of one list, with the groups it has there. -/
theorem restLoop_spec (hw : Walk h p w) (hfuel : w.length ≤ fuel) (b : Building) :
    ∃ b', restLoop h fuel p b = some b' ∧ b.Did b' (w.map Prod.snd) 0 := by
  induction w generalizing p fuel b with
  | nil =>
      obtain rfl : p = none := hw
      refine ⟨b, ?_, Building.Did.refl b⟩
      cases fuel with
      | zero => rfl
      | succ fuel => rfl
  | cons x w ih =>
      obtain ⟨rfl, c, hc, he, hrest⟩ := hw
      obtain ⟨fuel, rfl⟩ : ∃ k, fuel = k + 1 := ⟨fuel - 1, by rw [List.length_cons] at hfuel; omega⟩
      obtain ⟨b', hrun, hdid⟩ := ih hrest (Nat.le_of_succ_le_succ hfuel) (b.link c.toHashElement)
      refine ⟨b', ?_, ?_⟩
      · rw [restLoop, hc]
        exact hrun
      · have hlink := (b.did_link c.toHashElement).trans hdid
        rw [he] at hlink
        exact hlink

section Prec

variable {precE precH : OmNode → OmNode → Bool}

/-- How many nodes are written when two chains are merged. -/
def mergedNodes (precE precH : OmNode → OmNode → Bool) (c₁ c₂ : List HashElement) : Nat :=
  ((matched NodeList.cmpFutureId c₁ c₂).map fun p => (NodeList.joinGroups precE precH p.1 p.2).group.length).sum

/-- **The first loop** stores the first part of the merged chain and stops when one list is used up. By induction on
    the fuel; where the ids are the same, the merged group is written and stored. What is left is one of the two
    walks, and the loops after it go along that one. -/
theorem mergeLoop_spec (hw₁ : Walk h₁ p₁ w₁) (hw₂ : Walk h₂ p₂ w₂) (hfuel : w₁.length + w₂.length ≤ fuel)
    (b : Building) : ∃ b' p₁' p₂' w₁' w₂' es n,
      mergeLoop precE precH h₁ h₂ fuel p₁ p₂ b = some (b', p₁', p₂') ∧ b.Did b' es n ∧
        Walk h₁ p₁' w₁' ∧ Walk h₂ p₂' w₂' ∧ w₁'.length + w₂'.length ≤ fuel ∧
        NodeList.mergeChains precE precH (w₁.map Prod.snd) (w₂.map Prod.snd) =
          es ++ (w₁'.map Prod.snd ++ w₂'.map Prod.snd) ∧
        mergedNodes precE precH (w₁.map Prod.snd) (w₂.map Prod.snd) = n := by
  induction fuel generalizing p₁ p₂ w₁ w₂ b with
  | zero =>
      obtain rfl : w₁ = [] := List.length_eq_zero_iff.mp (by omega)
      obtain rfl : w₂ = [] := List.length_eq_zero_iff.mp (by omega)
      obtain rfl : p₁ = none := hw₁
      obtain rfl : p₂ = none := hw₂
      exact ⟨b, none, none, [], [], [], 0, rfl, Building.Did.refl b, rfl, rfl, Nat.le_refl 0, rfl, rfl⟩
  | succ fuel ih =>
      cases w₁ with
      | nil =>
          obtain rfl : p₁ = none := hw₁
          refine ⟨b, none, p₂, [], w₂, [], 0, ?_, Building.Did.refl b, rfl, hw₂, hfuel, rfl, rfl⟩
          cases p₂ with
          | none => rfl
          | some j => rfl
      | cons x₁ w₁ =>
          cases w₂ with
          | nil =>
              obtain rfl : p₂ = none := hw₂
              obtain ⟨rfl, -⟩ := id hw₁
              refine ⟨b, _, none, x₁ :: w₁, [], [], 0, rfl, Building.Did.refl b, hw₁, rfl, hfuel, ?_, ?_⟩
              · exact (mergeBy_nil_right _).trans (List.append_nil _).symm
              · rw [mergedNodes, List.map_nil, matched_nil_right]
                rfl
          | cons x₂ w₂ =>
              obtain ⟨rfl, c₁, hc₁, he₁, hrest₁⟩ := id hw₁
              obtain ⟨rfl, c₂, hc₂, he₂, hrest₂⟩ := id hw₂
              rw [mergeLoop, hc₁, hc₂]
              simp only [Option.bind_eq_bind, Option.bind_some]
              rw [List.map_cons, List.map_cons, NodeList.mergeChains, mergeBy_cons_cons, mergedNodes,
                matched_cons_cons, ← he₁, ← he₂]
              simp only [List.length_cons] at hfuel
              rcases Nat.lt_trichotomy c₁.futureId c₂.futureId with hlt | heq | hgt
              · have hcmp : NodeList.cmpFutureId c₁.toHashElement c₂.toHashElement = .lt := Nat.compare_eq_lt.mpr hlt
                rw [if_pos hlt, hcmp]
                obtain ⟨b', p₁', p₂', w₁', w₂', es, n, hrun, hdid, hw₁', hw₂', hlen, hchain, hn⟩ :=
                  ih hrest₁ hw₂ (by rw [List.length_cons]; omega) (b.link c₁.toHashElement)
                rw [List.map_cons, ← he₂] at hchain hn
                refine ⟨b', p₁', p₂', w₁', w₂', c₁.toHashElement :: es, n, hrun, ?_, hw₁', hw₂', by omega, ?_, hn⟩
                · have hall := (b.did_link c₁.toHashElement).trans hdid
                  rwa [Nat.zero_add] at hall
                · exact congrArg (c₁.toHashElement :: ·) hchain
              · have hcmp : NodeList.cmpFutureId c₁.toHashElement c₂.toHashElement = .eq := Nat.compare_eq_eq.mpr heq
                rw [if_neg (by omega), if_pos heq, hcmp]
                obtain ⟨e, he⟩ : ∃ e, e = NodeList.joinGroups precE precH c₁.toHashElement c₂.toHashElement := ⟨_, rfl⟩
                obtain ⟨b', p₁', p₂', w₁', w₂', es, n, hrun, hdid, hw₁', hw₂', hlen, hchain, hn⟩ :=
                  ih hrest₁ hrest₂ (by omega) ((b.alloc e.group).link e)
                dsimp only
                rw [← he]
                refine ⟨b', p₁', p₂', w₁', w₂', e :: es, e.group.length + n, hrun, ?_, hw₁', hw₂', by omega, ?_, ?_⟩
                · exact (b.did_alloc e.group e).trans hdid
                · exact congrArg (e :: ·) hchain
                · rw [List.map_cons, List.sum_cons, ← he, ← hn]
                  rfl
              · have hcmp : NodeList.cmpFutureId c₁.toHashElement c₂.toHashElement = .gt := Nat.compare_eq_gt.mpr hgt
                rw [if_neg (by omega), if_neg (by omega), hcmp]
                obtain ⟨b', p₁', p₂', w₁', w₂', es, n, hrun, hdid, hw₁', hw₂', hlen, hchain, hn⟩ :=
                  ih hw₁ hrest₂ (by rw [List.length_cons]; omega) (b.link c₂.toHashElement)
                rw [List.map_cons, ← he₁] at hchain hn
                refine ⟨b', p₁', p₂', w₁', w₂', c₂.toHashElement :: es, n, hrun, ?_, hw₁', hw₂', by omega, ?_, hn⟩
                · have hall := (b.did_link c₂.toHashElement).trans hdid
                  rwa [Nat.zero_add] at hall
                · exact congrArg (c₂.toHashElement :: ·) hchain

/-- `List(l1, l2)` and `Merge` before the elements are used up: the three loops one after the other. The assertions
    on the worker's memory are about its next free indices. -/
theorem union_spec {memory : PrivateMemory} (hw₁ : Walk h₁ h₁.head w₁) (hw₂ : Walk h₂ h₂.head w₂)
    (hfuel : w₁.length + w₂.length ≤ fuel) (hmem : memory.current < memory.size)
    (hmemH : memory.currentH < memory.sizeH)
    (hpos : (h₁.total + h₂.total) * 2 ≠ 0 ∨ (h₁.head = none ∧ h₂.head = none)) :
    ∃ b, Hash.union precE precH fuel memory h₁ h₂ = some b.finish ∧
      (⟨Table.empty memory.currentH ((h₁.total + h₂.total) * 2), memory, []⟩ : Building).Did b
        (NodeList.mergeChains precE precH (w₁.map Prod.snd) (w₂.map Prod.snd))
        (mergedNodes precE precH (w₁.map Prod.snd) (w₂.map Prod.snd)) := by
  obtain ⟨b₁, p₁', p₂', w₁', w₂', es, n, hrun₁, hdid₁, hw₁', hw₂', hlen, hchain, hn⟩ :=
    @mergeLoop_spec _ _ _ _ _ _ _ precE precH hw₁ hw₂ hfuel
      ⟨Table.empty memory.currentH ((h₁.total + h₂.total) * 2), memory, []⟩
  obtain ⟨b₂, hrun₂, hdid₂⟩ := @restLoop_spec h₁ w₁' p₁' fuel hw₁' (by omega) b₁
  obtain ⟨b₃, hrun₃, hdid₃⟩ := @restLoop_spec h₂ w₂' p₂' fuel hw₂' (by omega) b₂
  refine ⟨b₃, ?_, ?_⟩
  · simp only [Hash.union, require, Option.bind_eq_bind]
    rw [if_pos hmem, Option.bind_some, if_pos hmemH, Option.bind_some, if_pos hpos, Option.bind_some, hrun₁,
      Option.bind_some]
    dsimp only
    rw [hrun₂, Option.bind_some, hrun₃, Option.bind_some]
  · have hall := (hdid₁.trans hdid₂).trans hdid₃
    rw [List.append_assoc, ← hchain] at hall
    rw [hn]
    exact hall

/-- A group with a node more. -/
theorem length_mergeGroupSingle (n : Node) (group : List Node) :
    (NodeList.mergeGroupSingle precE precH n group).length = group.length + 1 := by
  induction group with
  | nil => rfl
  | cons nl group ih =>
      unfold NodeList.mergeGroupSingle
      split
      · rw [List.length_cons, ih, List.length_cons]
      · rfl

/-- How many nodes are written when a node is put in; `inserted` as in the loop. -/
def insertedNodes (futureId : Nat) : Bool → List HashElement → Nat
  | inserted, [] => if inserted then 0 else 1
  | inserted, p :: chain =>
      if p.futureId < futureId then insertedNodes futureId inserted chain
      else if p.futureId = futureId then p.group.length + 1 + insertedNodes futureId true chain
      else if inserted then insertedNodes futureId true chain
      else 1 + insertedNodes futureId true chain

/-- The end of `List(l, n, future_id)`: the id was not met. -/
def Building.insertLast (b : Building) (n : Node) (futureId : Nat) (inserted : Bool) : Building :=
  if inserted then b else (b.alloc [n]).link ⟨futureId, [n]⟩

/-- An element after the place of the new id, when the id is in: the rest of the list is stored as it is. -/
theorem insertLoop_behind {n : Node} {futureId : Nat} (hw : Walk h p w) (hfuel : w.length ≤ fuel) (b : Building) :
    ∃ b', insertLoop precE precH h n futureId fuel p true b = some (b', true) ∧
      b.Did b' (NodeList.insertChain precE precH n futureId true (w.map Prod.snd))
        (insertedNodes futureId true (w.map Prod.snd)) := by
  induction w generalizing p fuel b with
  | nil =>
      obtain rfl : p = none := hw
      refine ⟨b, ?_, Building.Did.refl b⟩
      cases fuel with
      | zero => rfl
      | succ fuel => rfl
  | cons x w ih =>
      obtain ⟨rfl, c, hc, he, hrest⟩ := hw
      obtain ⟨fuel, rfl⟩ : ∃ k, fuel = k + 1 := ⟨fuel - 1, by rw [List.length_cons] at hfuel; omega⟩
      have hfuel' := Nat.le_of_succ_le_succ hfuel
      rw [insertLoop, hc, List.map_cons, ← he, NodeList.insertChain, insertedNodes]
      simp only [Option.bind_eq_bind, Option.bind_some, if_true]
      by_cases hlt : c.futureId < futureId
      · rw [if_pos hlt, if_pos hlt, if_pos hlt]
        obtain ⟨b', hrun, hdid⟩ := ih hrest hfuel' (b.link c.toHashElement)
        have hall := (b.did_link c.toHashElement).trans hdid
        rw [Nat.zero_add] at hall
        exact ⟨b', hrun, hall⟩
      · rw [if_neg hlt, if_neg hlt, if_neg hlt]
        by_cases heq : c.futureId = futureId
        · rw [if_pos heq, if_pos heq, if_pos heq]
          obtain ⟨e, he'⟩ : ∃ e : HashElement,
            e = ⟨c.futureId, NodeList.mergeGroupSingle precE precH n c.group⟩ := ⟨_, rfl⟩
          obtain ⟨b', hrun, hdid⟩ := ih hrest hfuel' ((b.alloc e.group).link e)
          have hall := (b.did_alloc e.group e).trans hdid
          rw [he'] at hrun hall
          rw [length_mergeGroupSingle] at hall
          exact ⟨b', hrun, hall⟩
        · rw [if_neg heq, if_neg heq, if_neg heq]
          obtain ⟨b', hrun, hdid⟩ := ih hrest hfuel' (b.link c.toHashElement)
          have hall := (b.did_link c.toHashElement).trans hdid
          rw [Nat.zero_add] at hall
          exact ⟨b', hrun, hall⟩

/-- **The loop of `List(l, n, future_id)`**, with the node behind the last element when its id was not met. Up to
    its place the elements are stored as they are; there the node gets into a group, or a group of its own. -/
theorem insertLoop_spec {n : Node} {futureId : Nat} (hw : Walk h p w) (hfuel : w.length + 1 ≤ fuel)
    (b : Building) : ∃ b' inserted, insertLoop precE precH h n futureId fuel p false b = some (b', inserted) ∧
      b.Did (b'.insertLast n futureId inserted)
        (NodeList.insertChain precE precH n futureId false (w.map Prod.snd))
        (insertedNodes futureId false (w.map Prod.snd)) := by
  induction w generalizing p fuel b with
  | nil =>
      obtain rfl : p = none := hw
      refine ⟨b, false, ?_, b.did_alloc [n] ⟨futureId, [n]⟩⟩
      cases fuel with
      | zero => rfl
      | succ fuel => rfl
  | cons x w ih =>
      obtain ⟨rfl, c, hc, he, hrest⟩ := id hw
      rw [List.length_cons] at hfuel
      obtain ⟨fuel, rfl⟩ : ∃ k, fuel = k + 1 := ⟨fuel - 1, by omega⟩
      rw [insertLoop, hc, List.map_cons, ← he, NodeList.insertChain, insertedNodes]
      simp only [Option.bind_eq_bind, Option.bind_some, Bool.false_eq_true, if_false]
      by_cases hlt : c.futureId < futureId
      · rw [if_pos hlt, if_pos hlt, if_pos hlt]
        obtain ⟨b', inserted, hrun, hdid⟩ := ih hrest (Nat.le_of_succ_le_succ hfuel) (b.link c.toHashElement)
        have hall := (b.did_link c.toHashElement).trans hdid
        rw [Nat.zero_add] at hall
        exact ⟨b', inserted, hrun, hall⟩
      · rw [if_neg hlt, if_neg hlt, if_neg hlt]
        by_cases heq : c.futureId = futureId
        · rw [if_pos heq, if_pos heq, if_pos heq]
          obtain ⟨e, he'⟩ : ∃ e : HashElement,
            e = ⟨c.futureId, NodeList.mergeGroupSingle precE precH n c.group⟩ := ⟨_, rfl⟩
          obtain ⟨b', hrun, hdid⟩ := @insertLoop_behind h w c.next fuel precE precH n futureId hrest
            (by omega) ((b.alloc e.group).link e)
          have hall := (b.did_alloc e.group e).trans hdid
          rw [he'] at hrun hall
          rw [length_mergeGroupSingle] at hall
          exact ⟨b', true, hrun, hall⟩
        · -- the new id comes first; the element is looked at again
          rw [if_neg heq, if_neg heq, if_neg heq]
          obtain ⟨b', hrun, hdid⟩ := @insertLoop_behind h (x :: w) (some x.1) fuel precE precH n futureId hw
            (by rw [List.length_cons]; omega) ((b.alloc [n]).link ⟨futureId, [n]⟩)
          rw [List.map_cons, ← he, NodeList.insertChain, if_neg hlt, if_neg heq, insertedNodes, if_neg hlt,
            if_neg heq, if_pos rfl, if_pos rfl] at hdid
          exact ⟨b', true, hrun, (b.did_alloc [n] ⟨futureId, [n]⟩).trans hdid⟩

/-- `List(l, n, future_id)` before the elements are used up. -/
theorem insert_spec {memory : PrivateMemory} {n : Node} {futureId : Nat} (hw : Walk h h.head w)
    (hfuel : w.length + 1 ≤ fuel) (hmemH : memory.currentH < memory.sizeH) :
    ∃ b, Hash.insert precE precH fuel memory h n futureId = some b.finish ∧
      (⟨Table.empty memory.currentH ((h.total + 1) * 2), memory, []⟩ : Building).Did b
        (NodeList.insertChain precE precH n futureId false (w.map Prod.snd))
        (insertedNodes futureId false (w.map Prod.snd)) := by
  obtain ⟨b, inserted, hrun, hdid⟩ := @insertLoop_spec h w h.head fuel precE precH n futureId hw hfuel
    ⟨Table.empty memory.currentH ((h.total + 1) * 2), memory, []⟩
  refine ⟨b.insertLast n futureId inserted, ?_, hdid⟩
  simp only [Hash.insert, require, Option.bind_eq_bind]
  rw [if_pos hmemH, Option.bind_some, hrun, Option.bind_some]
  rfl

end Prec

end FOrder.Rdtool
