import FOrder.Shadow.History

/-!
# `Shadow.RaceDetector` — `futurerd`'s access history

`rd.cpp` and `mem_access.cpp` of `futurerd`: one reader and one writer for each grain, both overwritten by
the next access of their kind. A strand is known by its `smem_data` pointer (`P`), the active strand is the
one that makes the access, and `precedesNow cur u` stands for `g_reach.precedes_now(t_sstack.head(), u)`
while `cur` is active.
-/

namespace FOrder.Futurerd

variable {P : Type}

/-- `race_type`: the kind of the earlier access and of this one. -/
inductive RaceType where
  | WW
  | RW
  | WR
  deriving DecidableEq

/-- A call of `report_race`, with the grain it is made for. -/
structure RaceReport where
  grain : Nat
  addr : Addr
  lastRip : Addr
  thisRip : Addr
  raceType : RaceType
  deriving DecidableEq

/-- `MemAccess_t`. -/
structure MemAccess (P : Type) where
  rd : P
  rip : Addr
  deriving DecidableEq

abbrev AccessList (P : Type) := MemAccessList (Option (MemAccess P)) (Option (MemAccess P))

abbrev AccessCell (P : Type) := Cell (Option (MemAccess P)) (Option (MemAccess P))

/-- `MemAccessList_t::MemAccessList_t`; the assertion failing is `none`. -/
def memAccessListNew (addr : Addr) (isRead : Bool) (curr : P) (rip : Addr) (memSize : Nat) :
    Option (AccessList P) :=
  let start := addrToMemIndex addr
  let grains := sizeToNumGrains memSize
  if start < numSlots ∧ start + grains ≤ numSlots then
    some {
      startAddr := alignByPrevMaxGrainSize addr
      readers := fun i => if isRead ∧ start ≤ i ∧ i < start + grains then some ⟨curr, rip⟩ else none
      writers := fun i => if ¬isRead ∧ start ≤ i ∧ i < start + grains then some ⟨curr, rip⟩ else none }
  else none

section Handlers

variable (precedesNow : P → P → Bool) (key addr rip : Addr) (current : P)

/-- The check made against a remembered access, if there is one. -/
def checkLast (raceType : RaceType) (i : Nat) (last : Option (MemAccess P)) : List RaceReport :=
  match last with
  | none => []
  | some m =>
      if precedesNow current m.rd then [] else [⟨grainOf key i, addr, m.rip, rip, raceType⟩]

/-- First loop of `handle_read`. -/
def readWriter (i : Nat) (slot : AccessList P) : AccessList P × List RaceReport :=
  (slot, checkLast precedesNow key addr rip current .WR i (slot.writers i))

/-- Second loop of `handle_read`: the reader is replaced, whoever it was. -/
def readReaders (i : Nat) (slot : AccessList P) : AccessList P × List RaceReport :=
  (slot.setReader i (some ⟨current, rip⟩), [])

/-- First loop of `handle_write`. -/
def writeWriter (i : Nat) (slot : AccessList P) : AccessList P × List RaceReport :=
  (slot.setWriter i (some ⟨current, rip⟩),
    checkLast precedesNow key addr rip current .WW i (slot.writers i))

/-- Second loop of `handle_write`: the reader is checked and stays. -/
def writeReaders (i : Nat) (slot : AccessList P) : AccessList P × List RaceReport :=
  (slot, checkLast precedesNow key addr rip current .RW i (slot.readers i))

/-- `race_detector::handle_read`. -/
def handleRead (slot : AccessList P) (memSize : Nat) : Option (AccessList P × List RaceReport) :=
  let start := addrToMemIndex addr
  let grains := sizeToNumGrains memSize
  if start < numSlots ∧ start + grains ≤ numSlots then
    let (slot₁, r₁) := grainLoop (readWriter precedesNow key addr rip current) start grains slot
    let (slot₂, r₂) := grainLoop (readReaders rip current) start grains slot₁
    some (slot₂, r₁ ++ r₂)
  else none

/-- `race_detector::handle_write`. -/
def handleWrite (slot : AccessList P) (memSize : Nat) : Option (AccessList P × List RaceReport) :=
  let start := addrToMemIndex addr
  let grains := sizeToNumGrains memSize
  if start < numSlots ∧ start + grains ≤ numSlots then
    let (slot₁, r₁) := grainLoop (writeWriter precedesNow key addr rip current) start grains slot
    let (slot₂, r₂) := grainLoop (writeReaders precedesNow key addr rip current) start grains slot₁
    some (slot₂, r₁ ++ r₂)
  else none

end Handlers

/-- `race_detector::check_access`; `shadow_mem::insert` stores the new block. -/
def checkAccess (precedesNow : P → P → Bool) (mem : ShadowMem (AccessList P)) (a : Access P) :
    Option (ShadowMem (AccessList P) × List RaceReport) :=
  let key := addrToKey a.addr
  match mem.find key with
  | none => do
      let slot ← memAccessListNew a.addr a.isRead a.current a.rip a.memSize
      some (mem.store key (some slot), [])
  | some slot => do
      let (slot', races) ←
        if a.isRead then handleRead precedesNow key a.addr a.rip a.current slot a.memSize
        else handleWrite precedesNow key a.addr a.rip a.current slot a.memSize
      some (mem.store key (some slot'), races)

end FOrder.Futurerd
