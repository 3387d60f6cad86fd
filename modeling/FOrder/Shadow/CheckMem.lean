import FOrder.Shadow.History

/-!
# `Shadow.CheckMem` — `rdtool`'s access history

`check_mem.cpp` and `mem_access.cpp` of `rdtool`: one writer and a chain of readers for each grain. A
`Current` object is known by its address (`P`), its `english` node names the strand, and `Precedes` is a
parameter: what the history does with the answers is independent of how they are computed. Calls are
processed one at a time, so the `QUERY_START`/`QUERY_END` loop runs its body once.
-/

namespace FOrder.Rdtool

/-- The chain `readers[i]` (through `MemAccess_t::next`, newest first) and the writer `writers[i]`; both
    hold the `accessor` pointers. -/
abbrev AccessList (P : Type) := MemAccessList (List P) (Option P)

abbrev AccessCell (P : Type) := Cell (List P) (Option P)

variable {P E : Type} [DecidableEq P] [DecidableEq E]

/-- `MemAccessList_t::MemAccessList_t`: the block is created by its first access, which fills its own
    grains and leaves the others null. The assertion failing is `none`. -/
def memAccessListNew (addr : Addr) (isRead : Bool) (curr : P) (memSize : Nat) :
    Option (AccessList P) :=
  let start := addrToMemIndex addr
  let grains := sizeToNumGrains memSize
  if start < numSlots ∧ start + grains ≤ numSlots then
    some {
      startAddr := alignByPrevMaxGrainSize addr
      readers := fun i => if isRead ∧ start ≤ i ∧ i < start + grains then [curr] else []
      writers := fun i => if ¬isRead ∧ start ≤ i ∧ i < start + grains then some curr else none }
  else none

section Handlers

variable (english : P → E) (precedes : P → P → Bool) (current : P)

/-- First loop of `handle_write`: a null writer is set without a check, another one is checked unless it
    has the same english node, then replaced regardless. -/
def writeWriter (i : Nat) (slot : AccessList P) : AccessList P × List Nat :=
  match slot.writers i with
  | none => (slot.setWriter i (some current), [])
  | some writer =>
      let race := english writer != english current && !precedes writer current
      (slot.setWriter i (some current), if race then [i] else [])

/-- Second loop of `handle_write`: every reader of the chain is checked and deleted. -/
def writeReaders (i : Nat) (slot : AccessList P) : AccessList P × List Nat :=
  (slot.setReader i [],
    (slot.readers i).filterMap fun reader => if precedes reader current then none else some i)

/-- First loop of `handle_read`: the writer, if any, is checked. -/
def readWriter (i : Nat) (slot : AccessList P) : AccessList P × List Nat :=
  match slot.writers i with
  | none => (slot, [])
  | some writer => (slot, if precedes writer current then [] else [i])

/-- Second loop of `handle_read`: the reader is pushed unless the same `Current` object is in the chain. -/
def readReaders (i : Nat) (slot : AccessList P) : AccessList P × List Nat :=
  match slot.readers i with
  | [] => (slot.setReader i [current], [])
  | reader :: next =>
      if current ∈ reader :: next then (slot, [])
      else (slot.setReader i (current :: reader :: next), [])

/-- `handle_write`. -/
def handleWrite (slot : AccessList P) (addr : Addr) (memSize : Nat) :
    Option (AccessList P × List Nat) :=
  let start := addrToMemIndex addr
  let grains := sizeToNumGrains memSize
  if start < numSlots ∧ start + grains ≤ numSlots then
    let (slot₁, r₁) := grainLoop (writeWriter english precedes current) start grains slot
    let (slot₂, r₂) := grainLoop (writeReaders precedes current) start grains slot₁
    some (slot₂, r₁ ++ r₂)
  else none

/-- `handle_read`. -/
def handleRead (slot : AccessList P) (addr : Addr) (memSize : Nat) :
    Option (AccessList P × List Nat) :=
  let start := addrToMemIndex addr
  let grains := sizeToNumGrains memSize
  if start < numSlots ∧ start + grains ≤ numSlots then
    let (slot₁, r₁) := grainLoop (readWriter precedes current) start grains slot
    let (slot₂, r₂) := grainLoop (readReaders current) start grains slot₁
    some (slot₂, r₁ ++ r₂)
  else none

end Handlers

section Check

variable (english : P → E) (precedes : P → P → Bool)

/-- `check_access`: the new shadow memory and the grains for which `report_race` was reached. With one
    call at a time `insert` always installs the new block. -/
def checkAccess (mem : ShadowMem (AccessList P)) (a : Access P) :
    Option (ShadowMem (AccessList P) × List Nat) :=
  let key := addrToKey a.addr
  match mem.find key with
  | none => do
      let memList ← memAccessListNew a.addr a.isRead a.current a.memSize
      let (mem', _) := mem.insert key memList
      some (mem', [])
  | some slot => do
      let (slot', races) ←
        if a.isRead then handleRead precedes a.current slot a.addr a.memSize
        else handleWrite english precedes a.current slot a.addr a.memSize
      some (mem.store key (some slot'), races.map (grainOf key))

end Check

end FOrder.Rdtool
