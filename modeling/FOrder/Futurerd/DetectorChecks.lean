import FOrder.Futurerd.Detector
import FOrder.Shadow.RaceDetectorRaces

/-!
# `Futurerd.DetectorChecks` — one check, with a reachability structure that changes as it is asked

`precedes_now` compresses paths, so the reachability structure changes while a `check_access` asks it. As long as it
keeps an invariant `I`, and its answers mean the same afterwards (`Asks`), the check asks about the remembered
accesses of each grain that it reaches, and what it does to one grain does not depend on the others.

There are five loop bodies in `handle_read` and `handle_write`, and each touches its own cell only. `AsksCellwise`
says this of a body, with what it leaves in its cell and what it reports there; `AsksCellwise.loop` is the induction
over the grains, and with it `handleAsking_spec` and `checkAsking_spec` are put together. Which report comes from
which grain is kept in the statement (`out`), since reports are about grains.
-/

namespace FOrder.Futurerd

variable {S τ : Type} {ask : S → τ → Option (S × Bool)} {I : S → Prop} {known : τ → Prop} {means : τ → Bool → Prop}

/-! ## One question

A check may ask several questions, and each of them may change the structure that the next one is asked of. `Asks` is
what makes this harmless: the invariant is kept, and what an answer means does not depend on when it is given. -/

/-- A structure that keeps `I` answers about all that is `known`, and `means` what an answer does. -/
structure Asks (ask : S → τ → Option (S × Bool)) (I : S → Prop) (known : τ → Prop) (means : τ → Bool → Prop) : Prop where
  answer : ∀ s u, I s → known u → ∃ s' a, ask s u = some (s', a) ∧ I s' ∧ means u a

section Grains

variable (means : τ → Bool → Prop) (key addr rip : Addr)

/-- What `askLast` reports. -/
def Checked (raceType : RaceType) (i : Nat) (last : Option (MemAccess τ)) (races : List RaceReport) : Prop :=
  match last with
  | none => races = []
  | some m => ∃ a, means m.rd a ∧ races = if a then [] else [⟨grainOf key i, addr, m.rip, rip, raceType⟩]

/-- What a `check_access` reports for one slot. -/
def SlotChecked (isRead : Bool) (i : Nat) (c : AccessCell τ) (races : List RaceReport) : Prop :=
  ∃ r₁ r₂, Checked means key addr rip (if isRead then .WR else .WW) i c.writer r₁ ∧
    (if isRead then r₂ = [] else Checked means key addr rip .RW i c.reader r₂) ∧ races = r₁ ++ r₂

end Grains

/-- What a slot remembers is known. -/
def KnownLast (known : τ → Prop) (last : Option (MemAccess τ)) : Prop := ∀ m, last = some m → known m.rd

/-- And so for both accesses of a slot. -/
def KnownCell (known : τ → Prop) (c : AccessCell τ) : Prop := KnownLast known c.writer ∧ KnownLast known c.reader

variable {key addr rip : Addr} {current : τ}

/-- One question: nothing is reported when there is no last access, or when the answer is yes. -/
theorem askLast_spec (hask : Asks ask I known means) (key addr rip : Addr) (raceType : RaceType) (i : Nat)
    {last : Option (MemAccess τ)} {s : S} (hs : I s) (hlast : KnownLast known last) :
    ∃ s' races, askLast ask key addr rip raceType i last s = some (s', races) ∧ I s' ∧
      Checked means key addr rip raceType i last races := by
  cases last with
  | none => exact ⟨s, [], rfl, hs, rfl⟩
  | some m =>
      obtain ⟨s', a, hrun, hs', hmeans⟩ := hask.answer s m.rd hs (hlast m rfl)
      exact ⟨s', _, by simp [askLast, hrun], hs', a, hmeans, rfl⟩

/-! ## The loops

`AsksCellwise` for one body, then for a loop of it. The bodies are those of `Shadow.RaceDetector`, with the question
in the place of a test. -/

/-- A loop body that touches only its own cell, which it maps by `f`; `rep` is what it reports there. -/
structure AsksCellwise (I : S → Prop) (ok : AccessCell τ → Prop)
    (body : Nat → S × AccessList τ → Option ((S × AccessList τ) × List RaceReport))
    (f : AccessCell τ → AccessCell τ) (rep : Nat → AccessCell τ → List RaceReport → Prop) : Prop where
  run : ∀ i s l, I s → ok (l.cell i) → ∃ s' l' races, body i (s, l) = some ((s', l'), races) ∧ I s' ∧
    (∀ j, l'.cell j = if j = i then f (l.cell i) else l.cell j) ∧ rep i (l.cell i) races

variable {ok : AccessCell τ → Prop} {body : Nat → S × AccessList τ → Option ((S × AccessList τ) × List RaceReport)}
  {f : AccessCell τ → AccessCell τ} {rep : Nat → AccessCell τ → List RaceReport → Prop}

/-- **A loop over grains** acts on each cell by itself. -/
theorem AsksCellwise.loop (h : AsksCellwise I ok body f rep) (n i : Nat) {s : S} {l : AccessList τ} (hs : I s)
    (hok : ∀ j, i ≤ j → j < i + n → ok (l.cell j)) :
    ∃ s' l' races, ∃ out : Nat → List RaceReport, grainLoopM body i n (s, l) = some ((s', l'), races) ∧ I s' ∧
      (∀ j, l'.cell j = if i ≤ j ∧ j < i + n then f (l.cell j) else l.cell j) ∧
      (∀ j, i ≤ j → j < i + n → rep j (l.cell j) (out j)) ∧
      ∀ r, r ∈ races ↔ ∃ j, (i ≤ j ∧ j < i + n) ∧ r ∈ out j := by
  induction n generalizing i s l with
  | zero =>
      refine ⟨s, l, [], fun _ => [], rfl, hs, ?_, ?_, ?_⟩
      · intro j
        rw [if_neg (by omega)]
      · intro j hlo hhi
        omega
      · simp
  | succ n ih =>
      obtain ⟨s₁, l₁, r₁, hrun₁, hs₁, hcell₁, hrep₁⟩ := h.run i s l hs (hok i (Nat.le_refl i) (by omega))
      have hrest : ∀ j, i + 1 ≤ j → l₁.cell j = l.cell j := by
        intro j hj
        rw [hcell₁, if_neg (by omega)]
      obtain ⟨s', l', r₂, out, hrun₂, hs', hcell₂, hrep₂, hmem₂⟩ := ih (i + 1) hs₁ (by
        intro j hlo hhi
        rw [hrest j hlo]
        exact hok j (by omega) (by omega))
      refine ⟨s', l', r₁ ++ r₂, fun j => if j = i then r₁ else out j, by simp [grainLoopM, hrun₁, hrun₂], hs', ?_, ?_, ?_⟩
      · intro j
        rw [hcell₂, hcell₁]
        by_cases hj : j = i
        · subst hj
          rw [if_neg (by omega), if_pos rfl, if_pos (by omega)]
        · rw [if_neg hj]
          by_cases hin : i + 1 ≤ j ∧ j < i + 1 + n
          · rw [if_pos hin, if_pos (by omega)]
          · rw [if_neg hin, if_neg (by omega)]
      · intro j hlo hhi
        by_cases hj : j = i
        · subst hj
          simpa using hrep₁
        · simp only [if_neg hj]
          rw [← hrest j (by omega)]
          exact hrep₂ j (by omega) (by omega)
      · intro r
        rw [List.mem_append, hmem₂]
        constructor
        · rintro (hr | ⟨j, hj, hr⟩)
          · exact ⟨i, by omega, by simpa using hr⟩
          · have hji : j ≠ i := by omega
            exact ⟨j, by omega, by simpa [hji] using hr⟩
        · rintro ⟨j, hj, hr⟩
          by_cases hji : j = i
          · exact Or.inl (by simpa [hji] using hr)
          · exact Or.inr ⟨j, by omega, by simpa [hji] using hr⟩

section Bodies

variable (hask : Asks ask I known means)

include hask

/-- A read asks about the last write. -/
theorem askWriter_cellwise (key addr rip : Addr) :
    AsksCellwise I (fun c => KnownLast known c.writer) (askWriter ask key addr rip) id
    (fun i c races => Checked means key addr rip .WR i c.writer races) where
  run i s l hs hok := by
    obtain ⟨s', races, hrun, hs', hchecked⟩ := askLast_spec hask key addr rip .WR i hs hok
    refine ⟨s', l, races, by simp [askWriter, show l.writers i = (l.cell i).writer from rfl, hrun], hs', ?_, hchecked⟩
    intro j
    split
    · rename_i hj
      rw [hj]
      rfl
    · rfl

/-- A write asks about the last write and takes its place. -/
theorem replaceWriter_cellwise (key addr rip : Addr) (current : τ) :
    AsksCellwise I (fun c => KnownLast known c.writer) (replaceWriter ask key addr rip current)
    (fun c => { c with writer := some ⟨current, rip⟩ })
    (fun i c races => Checked means key addr rip .WW i c.writer races) where
  run i s l hs hok := by
    obtain ⟨s', races, hrun, hs', hchecked⟩ := askLast_spec hask key addr rip .WW i hs hok
    refine ⟨s', l.setWriter i (some ⟨current, rip⟩), races,
      by simp [replaceWriter, show l.writers i = (l.cell i).writer from rfl, hrun], hs', ?_, hchecked⟩
    intro j
    rw [MemAccessList.cell_setWriter]
    split
    · rename_i hj
      rw [hj]
    · rfl

/-- A write asks about the last read and leaves it there. -/
theorem askReader_cellwise (key addr rip : Addr) :
    AsksCellwise I (fun c => KnownLast known c.reader) (askReader ask key addr rip) id
    (fun i c races => Checked means key addr rip .RW i c.reader races) where
  run i s l hs hok := by
    obtain ⟨s', races, hrun, hs', hchecked⟩ := askLast_spec hask key addr rip .RW i hs hok
    refine ⟨s', l, races, by simp [askReader, show l.readers i = (l.cell i).reader from rfl, hrun], hs', ?_, hchecked⟩
    intro j
    split
    · rename_i hj
      rw [hj]
      rfl
    · rfl

end Bodies

/-- A read is stored without a question. -/
theorem putReader_cellwise (rip : Addr) (current : τ) : AsksCellwise I (fun _ => True) (putReader (S := S) rip current)
    (fun c => { c with reader := some ⟨current, rip⟩ }) (fun _ _ races => races = []) where
  run i s l hs _ := by
    refine ⟨s, l.setReader i (some ⟨current, rip⟩), [], rfl, hs, ?_, rfl⟩
    intro j
    rw [MemAccessList.cell_setReader]
    split
    · rename_i hj
      rw [hj]
    · rfl

/-! ## One call

Two loops in a row, on a block that is there, or one that the access has just made. -/

section Call

variable {a : Access τ} {s : S}

/-- **`handle_read` and `handle_write`**, on a block. -/
theorem handleAsking_spec (hask : Asks ask I known means)
    (hfits : addrToMemIndex a.addr + sizeToNumGrains a.memSize ≤ numSlots) {l : AccessList τ} (hs : I s)
    (hknown : ∀ i, KnownCell known (l.cell i)) :
    ∃ s' l' races, ∃ out : Nat → List RaceReport,
      handleAsking ask (addrToKey a.addr) a.addr a.rip a.current a.isRead a.memSize (s, l) = some ((s', l'), races) ∧
      I s' ∧ (∀ i, l'.cell i = if TouchesCell a (addrToKey a.addr) i then cellStep a (l.cell i) else l.cell i) ∧
      (∀ i, TouchesCell a (addrToKey a.addr) i →
        SlotChecked means (addrToKey a.addr) a.addr a.rip a.isRead i (l.cell i) (out i)) ∧
      ∀ r, r ∈ races ↔ ∃ i, TouchesCell a (addrToKey a.addr) i ∧ r ∈ out i := by
  simp only [touchesCell_own]
  unfold handleAsking
  simp only [addrToMemIndex_lt, hfits, and_self, if_true]
  cases hread : a.isRead with
  | true =>
      obtain ⟨s₁, l₁, r₁, out₁, hrun₁, hs₁, hcell₁, hrep₁, hmem₁⟩ :=
        (askWriter_cellwise hask (addrToKey a.addr) a.addr a.rip).loop
          (sizeToNumGrains a.memSize) (addrToMemIndex a.addr) hs (fun j _ _ => (hknown j).1)
      obtain ⟨s₂, l₂, r₂, out₂, hrun₂, hs₂, hcell₂, hrep₂, hmem₂⟩ :=
        (putReader_cellwise (I := I) a.rip a.current).loop
          (sizeToNumGrains a.memSize) (addrToMemIndex a.addr) (l := l₁) hs₁ (fun _ _ _ => trivial)
      refine ⟨s₂, l₂, r₁ ++ r₂, out₁, by simp [hrun₁, hrun₂], hs₂, ?_, ?_, ?_⟩
      · intro i
        rw [hcell₂, hcell₁]
        by_cases hi : addrToMemIndex a.addr ≤ i ∧ i < addrToMemIndex a.addr + sizeToNumGrains a.memSize
        · simp [hi, cellStep, hread]
        · simp [hi]
      · intro i hi
        exact ⟨out₁ i, [], hrep₁ i hi.1 hi.2, by simp, by simp⟩
      · intro r
        rw [List.mem_append, hmem₁, hmem₂]
        constructor
        · rintro (hr | ⟨i, hi, hr⟩)
          · exact hr
          · rw [hrep₂ i hi.1 hi.2] at hr
            cases hr
        · exact Or.inl
  | false =>
      obtain ⟨s₁, l₁, r₁, out₁, hrun₁, hs₁, hcell₁, hrep₁, hmem₁⟩ :=
        (replaceWriter_cellwise hask (addrToKey a.addr) a.addr a.rip a.current).loop
          (sizeToNumGrains a.memSize) (addrToMemIndex a.addr) hs (fun j _ _ => (hknown j).1)
      -- the readers are still there
      have hin : ∀ i, addrToMemIndex a.addr ≤ i → i < addrToMemIndex a.addr + sizeToNumGrains a.memSize →
          l₁.cell i = { l.cell i with writer := some ⟨a.current, a.rip⟩ } := by
        intro i hlo hhi
        rw [hcell₁, if_pos ⟨hlo, hhi⟩]
      obtain ⟨s₂, l₂, r₂, out₂, hrun₂, hs₂, hcell₂, hrep₂, hmem₂⟩ :=
        (askReader_cellwise hask (addrToKey a.addr) a.addr a.rip).loop
          (sizeToNumGrains a.memSize) (addrToMemIndex a.addr) (l := l₁) hs₁ (by
            intro i hlo hhi
            rw [hin i hlo hhi]
            exact (hknown i).2)
      refine ⟨s₂, l₂, r₁ ++ r₂, fun i => out₁ i ++ out₂ i, by simp [hrun₁, hrun₂], hs₂, ?_, ?_, ?_⟩
      · intro i
        rw [hcell₂, hcell₁]
        by_cases hi : addrToMemIndex a.addr ≤ i ∧ i < addrToMemIndex a.addr + sizeToNumGrains a.memSize
        · simp [hi, cellStep, hread]
        · simp [hi]
      · intro i hi
        have hrep := hrep₂ i hi.1 hi.2
        rw [hin i hi.1 hi.2] at hrep
        exact ⟨out₁ i, out₂ i, hrep₁ i hi.1 hi.2, by simpa using hrep, rfl⟩
      · intro r
        simp only [List.mem_append, hmem₁, hmem₂]
        constructor
        · rintro (⟨i, hi, hr⟩ | ⟨i, hi, hr⟩)
          · exact ⟨i, hi, Or.inl hr⟩
          · exact ⟨i, hi, Or.inr hr⟩
        · rintro ⟨i, hi, hr | hr⟩
          · exact Or.inl ⟨i, hi, hr⟩
          · exact Or.inr ⟨i, hi, hr⟩

/-- **`check_access`**: what it leaves in each slot, and what it reports there. -/
theorem checkAsking_spec (hask : Asks ask I known means)
    (hfits : addrToMemIndex a.addr + sizeToNumGrains a.memSize ≤ numSlots) {mem : ShadowMem (AccessList τ)} (hs : I s)
    (hknown : ∀ key i, KnownCell known (cellAt ⟨none, none⟩ mem key i)) :
    ∃ s' mem' races, ∃ out : Nat → List RaceReport, checkAsking ask s mem a = some ((s', mem'), races) ∧ I s' ∧
      (∀ key i, cellAt ⟨none, none⟩ mem' key i = if TouchesCell a key i then cellStep a (cellAt ⟨none, none⟩ mem key i)
        else cellAt ⟨none, none⟩ mem key i) ∧
      (∀ i, TouchesCell a (addrToKey a.addr) i → SlotChecked means (addrToKey a.addr) a.addr a.rip a.isRead i
        (cellAt ⟨none, none⟩ mem (addrToKey a.addr) i) (out i)) ∧
      ∀ r, r ∈ races ↔ ∃ i, TouchesCell a (addrToKey a.addr) i ∧ r ∈ out i := by
  have hother : ∀ {key : Addr} {i : Nat}, key ≠ addrToKey a.addr → ¬TouchesCell a key i := fun hk ht => hk ht.1
  unfold checkAsking
  cases hfind : mem.find (addrToKey a.addr) with
  | none =>
      have hnew : memAccessListNew a.addr a.isRead a.current a.rip a.memSize = some (firstBlock a) := by
        simp only [memAccessListNew, addrToMemIndex_lt, hfits, and_self, if_true]
        rfl
      have hold : ∀ i, cellAt (⟨none, none⟩ : AccessCell τ) mem (addrToKey a.addr) i = ⟨none, none⟩ := by
        intro i
        simp [cellAt, hfind]
      refine ⟨s, mem.store (addrToKey a.addr) (some (firstBlock a)), [], fun _ => [], by simp [hfind, hnew], hs, ?_, ?_, ?_⟩
      · intro key i
        rw [cellAt_store]
        by_cases hk : key = addrToKey a.addr
        · subst hk
          rw [if_pos rfl, firstBlock_cell, hold]
        · rw [if_neg hk, if_neg (hother hk)]
      · intro i _
        rw [hold]
        refine ⟨[], [], rfl, ?_, rfl⟩
        cases a.isRead
        · exact rfl
        · simp
      · simp
  | some l =>
      have hold : ∀ i, cellAt (⟨none, none⟩ : AccessCell τ) mem (addrToKey a.addr) i = l.cell i := by
        intro i
        simp [cellAt, hfind]
      obtain ⟨s', l', races, out, hrun, hs', hcell, hrep, hmem⟩ :=
        handleAsking_spec hask hfits (l := l) hs (by
          intro i
          rw [← hold i]
          exact hknown _ i)
      refine ⟨s', mem.store (addrToKey a.addr) (some l'), races, out, by simp [hfind, hrun], hs', ?_, ?_, hmem⟩
      · intro key i
        rw [cellAt_store]
        by_cases hk : key = addrToKey a.addr
        · subst hk
          rw [if_pos rfl, hcell, hold]
        · rw [if_neg hk, if_neg (hother hk)]
      · intro i hi
        rw [hold]
        exact hrep i hi

end Call

end FOrder.Futurerd
