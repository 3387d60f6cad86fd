import FOrder.Lib.Reads
import FOrder.Lib.Run
import FOrder.OrderMaint.Omrd

/-!
# `OrderMaint.Query` — queries that run while labels are rewritten

`QUERY_START` and `QUERY_END` repeat a query until `g_relabel_id` is even and the same before and after it. The
memory a query reads is modelled location by location, so that inserts, and the updates of a batch relabel in any
order, may come between two of its reads. Inserts only write to the node they add.

## The argument

- The counter is odd while a batch is in progress, so a turn that began with an even value began between two batches
  (`counter_even`).
- At the end the counter has the same value. As a number of 64 bits it comes round after `2 ^ 63` batches, and with
  fewer of them in between there were none (`counter_eq`).
- Without a batch only inserts write, and they write to a node that no structure has yet. A query reads the
  locations of existing nodes only (`Query.Existing.within`), so all its reads were from one memory (`LoopOk`,
  `Reads.Path`), and this memory is order-preserving.

`Sound` is the invariant over all interleavings: the counter is what the number of batches says, between two batches
the memory represents the abstract lists, and every loop is `LoopOk`. The theorem about accepted queries is then
read off the step in which the loop exits (`exited_step`), and the order of existing nodes never changes afterwards
(`before_reaches`).

The bound on batches cannot be left out: with `2 ^ 63` batches between two reads a query is torn, and `torn_query`
shows one.
-/

namespace FOrder.OrderMaint

/-! ## The memory

What a query reads, location by location, and when a memory holds a structure at all. Between two reads anything may
happen to the memory, so a query is a tree of reads and not a function of one state. -/

/-- What `om_precedes` reads: fields of a node, of a list, and of a leaf. -/
inductive Loc where
  | list (n : Name)
  | label (n : Name)
  | above (l : Nat)
  | tlLabel (t : TlName)
  deriving DecidableEq

/-- `om_precedes`, one read after the other. -/
def omPrecedes : Option Name → Option Name → Reads Loc Nat Bool
  | none, _ => .ret true
  | some _, none => .ret false
  | some x, some y =>
      .read (.list x) fun lx => .read (.list y) fun ly =>
        if lx = ly then .read (.label x) fun a => .read (.label y) fun b => .ret (a < b)
        else
          .read (.list x) fun lx => .read (.above lx) fun tx => .read (.tlLabel tx) fun a =>
            .read (.list y) fun ly => .read (.above ly) fun ty => .read (.tlLabel ty) fun b => .ret (a < b)

/-- The body of a query loop: what it asks next depends on the answers so far. `Precedes` asks about the English and
then about the Hebrew nodes, and `Search` about those of a list. -/
inductive Query where
  | ret (race : Bool)
  | ask (x y : Option Name) (next : Bool → Query)

def Query.reads : Query → Reads Loc Nat Bool
  | .ret race => .ret race
  | .ask x y next => (omPrecedes x y).andThen fun answer => (next answer).reads

/-- The value of the query when `om_precedes` is `before`. -/
def Query.value (before : Option Name → Option Name → Bool) : Query → Bool
  | .ret race => race
  | .ask x y next => (next (before x y)).value before

/-- The structure lies in the memory; `addr` has the addresses of the lists. -/
structure Image (m : Loc → Nat) (om : Om) (addr : TlName → Nat) : Prop where
  above : ∀ a ∈ om.root.leaves, m (.above (addr a.node.name)) = a.node.name
  tlLabel : ∀ a ∈ om.root.leaves, m (.tlLabel a.node.name) = a.node.label
  list : ∀ a ∈ om.root.leaves, ∀ b ∈ a.list.nodes, m (.list b.name) = addr a.node.name
  label : ∀ a ∈ om.root.leaves, ∀ b ∈ a.list.nodes, m (.label b.name) = b.label

/-- The memory holds a well-formed structure with this abstract list: it is order-preserving. -/
def Represents (m : Loc → Nat) (L : List Name) : Prop :=
  ∃ om addr, WellFormed om ∧ Image m om addr ∧ om.root.names = L

/-- What inserts and relabels make of a structure is order-preserving. -/
theorem Run.represents {shl : Nat → Nat} {m : Loc → Nat} {om : Om} {L : List Name} {addr : TlName → Nat}
    (h : Run shl om L) (himage : Image m om addr) : Represents m L :=
  ⟨om, addr, h.wellFormed.1, himage, h.wellFormed.2⟩

/-- In a memory that does not change, `om_precedes` is that of the structure. -/
theorem omPrecedes_run {m : Loc → Nat} {om : Om} {addr : TlName → Nat} (h : WellFormed om) (himage : Image m om addr)
    {x y : Name} (hx : x ∈ om.root.names) (hy : y ∈ om.root.names) :
    precedes om (some x) (some y) = some ((omPrecedes (some x) (some y)).run m) := by
  obtain ⟨a, b, hlocx, ha, hb, rfl⟩ := locate_spec hx
  obtain ⟨c, d, hlocy, hc, hd, rfl⟩ := locate_spec hy
  have habove := h.shaped.above
  have hsame : a.list.above = c.list.above ↔ addr a.node.name = addr c.node.name := by
    rw [habove a ha, habove c hc]
    constructor
    · intro heq
      rw [heq]
    · intro heq
      rw [← himage.above a ha, heq, himage.above c hc]
  simp only [precedes, hlocx, hlocy, Option.bind_eq_bind, Option.bind_some, omPrecedes, Reads.run,
    himage.list a ha b hb, himage.list c hc d hd]
  by_cases heq : a.list.above = c.list.above
  · rw [if_pos heq, if_pos (hsame.mp heq)]
    simp only [Reads.run, himage.label a ha b hb, himage.label c hc d hd]
  · rw [if_neg heq, if_neg fun hcontra => heq (hsame.mpr hcontra)]
    simp only [Reads.run, himage.list a ha b hb, himage.list c hc d hd, himage.above a ha, himage.above c hc,
      himage.tlLabel a ha, himage.tlLabel c hc]

/-- **In an order-preserving memory `om_precedes` is the abstract order.** -/
theorem Represents.precedes {m : Loc → Nat} {L : List Name} (h : Represents m L) {x y : Name} (hx : x ∈ L)
    (hy : y ∈ L) : (omPrecedes (some x) (some y)).run m = true ↔ Before L x y := by
  obtain ⟨om, addr, hwf, himage, rfl⟩ := h
  obtain ⟨answer, hanswer, hiff⟩ := precedes_spec hwf hx hy
  rw [omPrecedes_run hwf himage hx hy, Option.some.injEq] at hanswer
  rw [hanswer]
  exact hiff

/-- A query in a memory that does not change has the value that `om_precedes` in this memory gives it. -/
theorem Query.run_reads (m : Loc → Nat) (q : Query) : q.reads.run m = q.value fun x y => (omPrecedes x y).run m := by
  induction q with
  | ret race => rfl
  | ask x y next ih =>
      show ((omPrecedes x y).andThen _).run m = _
      rw [Reads.run_andThen]
      exact ih _

/-! ## The interleavings

The steps of the loops, of inserts and of batches. A batch writes to any locations in any order; it is only asked that
an order-preserving memory with the same lists is there when it ends. -/

/-- How far a loop has come: about to read `g_relabel_id`; inside, with the id it has read; or behind it. `begun` is
not in the code: it is the number of batches begun before the turn. -/
inductive Phase where
  | start
  | reading (relabelId : BitVec 64) (begun : Nat) (rest : Reads Loc Nat Bool)
  | exited (race : Bool)

structure Loop where
  query : Query
  phase : Phase

/-- The shared state and the query loops. The abstract lists and the number of batches begun are not in the code. -/
structure State where
  mem : Loc → Nat
  relabelId : BitVec 64
  batchInProgress : Bool
  loops : Nat → Option Loop
  orders : Order → List Name
  batches : Nat

inductive Action where
  | beginBatch
  | update (l : Loc) (v : Nat)
  | endBatch
  | insert (o : Order) (base n : Name) (list label : Nat)
  | query (i : Nat) (q : Query)
  | read (i : Nat)

/-- The memory with a new node. -/
def addNode (m : Loc → Nat) (n : Name) (list label : Nat) : Loc → Nat :=
  Function.update (Function.update m (.list n) list) (.label n) label

/-- One read of a loop, with the test of `QUERY_END` at the end of a turn. -/
def Loop.step (s : State) : Loop → Loop
  | ⟨q, .start⟩ => ⟨q, .reading s.relabelId s.batches q.reads⟩
  | ⟨q, .reading id begun (.read l next)⟩ => ⟨q, .reading id begun (next (s.mem l))⟩
  | ⟨q, .reading id _ (.ret race)⟩ =>
      if id &&& 1 = 0 ∧ id = s.relabelId then ⟨q, .exited race⟩ else ⟨q, .start⟩
  | ⟨q, .exited race⟩ => ⟨q, .exited race⟩

def step (s : State) : Action → Option State
  | .beginBatch =>
      if s.batchInProgress then none
      else some { s with relabelId := s.relabelId + 1, batchInProgress := true, batches := s.batches + 1 }
  | .update l v => if s.batchInProgress then some { s with mem := Function.update s.mem l v } else none
  | .endBatch =>
      if s.batchInProgress then some { s with relabelId := s.relabelId + 1, batchInProgress := false } else none
  | .insert o base n list label =>
      some { s with
        mem := addNode s.mem n list label
        orders := Function.update s.orders o (insertAfter base n (s.orders o)) }
  | .query i q =>
      match s.loops i with
      | none | some ⟨_, .exited _⟩ => some { s with loops := Function.update s.loops i (some ⟨q, .start⟩) }
      | some _ => none
  | .read i => (s.loops i).map fun l => { s with loops := Function.update s.loops i (some (l.step s)) }

/-- What a step does, action by action. -/
theorem step_cases {s s' : State} {a : Action} (hstep : step s a = some s') :
    match a with
    | .beginBatch => s.batchInProgress = false ∧
        s' = { s with relabelId := s.relabelId + 1, batchInProgress := true, batches := s.batches + 1 }
    | .update l v => s.batchInProgress = true ∧ s' = { s with mem := Function.update s.mem l v }
    | .endBatch => s.batchInProgress = true ∧
        s' = { s with relabelId := s.relabelId + 1, batchInProgress := false }
    | .insert o base n list label => s' = { s with
        mem := addNode s.mem n list label
        orders := Function.update s.orders o (insertAfter base n (s.orders o)) }
    | .query i q => s' = { s with loops := Function.update s.loops i (some ⟨q, .start⟩) }
    | .read i => ∃ l, s.loops i = some l ∧
        s' = { s with loops := Function.update s.loops i (some (l.step s)) } := by
  cases a with
  | beginBatch =>
      unfold step at hstep
      cases hidle : s.batchInProgress with
      | true => simp [hidle] at hstep
      | false => simpa [hidle, eq_comm] using hstep
  | update loc v =>
      unfold step at hstep
      cases hidle : s.batchInProgress with
      | false => simp [hidle] at hstep
      | true => simpa [hidle, eq_comm] using hstep
  | endBatch =>
      unfold step at hstep
      cases hidle : s.batchInProgress with
      | false => simp [hidle] at hstep
      | true => simpa [hidle, eq_comm] using hstep
  | insert o base n list label => exact (Option.some.inj hstep).symm
  | query i q =>
      unfold step at hstep
      simp only [] at hstep
      split at hstep
      · exact (Option.some.inj hstep).symm
      · exact (Option.some.inj hstep).symm
      · cases hstep
  | read i =>
      obtain ⟨l, hl, rfl⟩ := Option.map_eq_some_iff.mp hstep
      exact ⟨l, hl, rfl⟩

/-- Both nodes are in one of the structures, as far as they are not `NULL`. -/
def Exist (orders : Order → List Name) (x y : Option Name) : Prop :=
  ∃ o, (∀ z ∈ x, z ∈ orders o) ∧ ∀ z ∈ y, z ∈ orders o

/-- A query asks about existing nodes only. -/
def Query.Existing (orders : Order → List Name) : Query → Prop
  | .ret _ => True
  | .ask x y next => Exist orders x y ∧ ∀ answer, (next answer).Existing orders

/-- What the updates of a batch come to, and where inserts and queries may happen. An insert between batches leaves
an order-preserving memory, as one during a batch does when the batch ends. -/
def Allowed (s : State) : Action → Prop
  | .endBatch => ∀ o, Represents s.mem (s.orders o)
  | .insert o base n list label =>
      base ∈ s.orders o ∧ (∀ o', n ∉ s.orders o') ∧
        (s.batchInProgress = false → Represents (addNode s.mem n list label) (insertAfter base n (s.orders o)))
  | .query _ q => q.Existing s.orders
  | _ => True

/-- Fewer than `2 ^ 63` batches begin during one turn of a loop. -/
def Short (s : State) : Action → Prop
  | .read i => ∀ q id begun rest, s.loops i = some ⟨q, .reading id begun rest⟩ → s.batches < begun + 2 ^ 63
  | _ => True

structure Initial (s : State) : Prop where
  relabelId : s.relabelId = 0
  idle : s.batchInProgress = false
  loops : ∀ i, s.loops i = none
  represents : ∀ o, Represents s.mem (s.orders o)
  batches : s.batches = 0

/-! ## What every state satisfies

The invariant and its preservation, action by action. The loops do not influence each other, so one loop is followed
at a time. -/

/-- The locations an insert of a new node leaves alone. -/
def Owned (orders : Order → List Name) : Loc → Prop
  | .list n | .label n => ∃ o, n ∈ orders o
  | .above _ | .tlLabel _ => True

/-- A comparison of existing nodes reads what belongs to existing nodes. -/
theorem omPrecedes_within {orders : Order → List Name} {x y : Option Name} (h : Exist orders x y) :
    (omPrecedes x y).Within (Owned orders) := by
  obtain ⟨o, hx, hy⟩ := h
  match x, y with
  | none, _ => trivial
  | some x, none => trivial
  | some x, some y =>
      have hx : ∃ o, x ∈ orders o := ⟨o, hx x rfl⟩
      have hy : ∃ o, y ∈ orders o := ⟨o, hy y rfl⟩
      refine ⟨hx, fun lx => ⟨hy, fun ly => ?_⟩⟩
      show Reads.Within _ (if lx = ly then _ else _)
      split
      · exact ⟨hx, fun a => ⟨hy, fun b => trivial⟩⟩
      -- whatever the list fields hold, the rest is read outside the nodes
      · exact ⟨hx, fun lx => ⟨trivial, fun tx => ⟨trivial, fun a =>
          ⟨hy, fun ly => ⟨trivial, fun ty => ⟨trivial, fun b => trivial⟩⟩⟩⟩⟩⟩

/-- So does a whole query, whatever the answers are. -/
theorem Query.Existing.within {orders : Order → List Name} {q : Query} (h : q.Existing orders) :
    q.reads.Within (Owned orders) := by
  induction q with
  | ret race => trivial
  | ask x y next ih => exact (omPrecedes_within h.1).andThen fun answer => ih answer (h.2 answer)

/-- Nodes that exist go on existing. -/
theorem Query.Existing.mono {orders orders' : Order → List Name} {q : Query} (h : q.Existing orders)
    (hle : ∀ o, ∀ z ∈ orders o, z ∈ orders' o) : q.Existing orders' := by
  induction q with
  | ret race => trivial
  | ask x y next ih =>
      obtain ⟨⟨o, hx, hy⟩, hnext⟩ := h
      exact ⟨⟨o, fun z hz => hle o z (hx z hz), fun z hz => hle o z (hy z hz)⟩, fun answer =>
        ih answer (hnext answer)⟩

/-- A new node changes no location of an existing one. -/
theorem addNode_owned {orders : Order → List Name} {n : Name} (hn : ∀ o, n ∉ orders o) {l : Loc}
    (hl : Owned orders l) (m : Loc → Nat) (list label : Nat) : addNode m n list label l = m l := by
  have hlabel : l ≠ .label n := by
    rintro rfl
    obtain ⟨o, ho⟩ := hl
    exact hn o ho
  have hlist : l ≠ .list n := by
    rintro rfl
    obtain ⟨o, ho⟩ := hl
    exact hn o ho
  unfold addNode
  rw [Function.update_of_ne hlabel, Function.update_of_ne hlist]

/-- A structure does not notice a node it does not have. -/
theorem Represents.addNode {m : Loc → Nat} {L : List Name} {n : Name} (h : Represents m L) (hn : n ∉ L)
    (list label : Nat) : Represents (addNode m n list label) L := by
  obtain ⟨om, addr, hwf, himage, rfl⟩ := h
  have howned : ∀ l, Owned (fun _ => om.root.names) l → OrderMaint.addNode m n list label l = m l :=
    fun l hl => addNode_owned (fun _ => hn) hl m list label
  have hmem : ∀ a ∈ om.root.leaves, ∀ b ∈ a.list.nodes, b.name ∈ om.root.names := by
    intro a ha b hb
    exact mem_names.mpr ⟨a.list, List.mem_map_of_mem ha, List.mem_map_of_mem hb⟩
  refine ⟨om, addr, hwf, ⟨?_, ?_, ?_, ?_⟩, rfl⟩
  · intro a ha
    exact (howned (.above (addr a.node.name)) trivial).trans (himage.above a ha)
  · intro a ha
    exact (howned (.tlLabel a.node.name) trivial).trans (himage.tlLabel a ha)
  · intro a ha b hb
    exact (howned (.list b.name) ⟨.english, hmem a ha b hb⟩).trans (himage.list a ha b hb)
  · intro a ha b hb
    exact (howned (.label b.name) ⟨.english, hmem a ha b hb⟩).trans (himage.label a ha b hb)

/-- The counter after so many batches have begun, and all but perhaps the last have ended. -/
def counter (batches : Nat) (inProgress : Bool) : BitVec 64 := BitVec.ofNat 64 (2 * batches - inProgress.toNat)

/-- The counter is odd while a batch is in progress. -/
theorem counter_even {batches : Nat} {inProgress : Bool} (hbegun : inProgress = true → 0 < batches)
    (heven : counter batches inProgress &&& 1 = 0) : inProgress = false := by
  by_contra hprogress
  obtain rfl : inProgress = true := by simpa using hprogress
  have hpos := hbegun rfl
  have hnat := congrArg BitVec.toNat heven
  have hodd : (2 * batches - 1) % 2 = 1 := by omega
  rw [BitVec.toNat_and, show BitVec.toNat (1 : BitVec 64) = 1 from rfl, Nat.and_one_is_mod] at hnat
  have hzero : (2 * batches - 1) % 2 ^ 64 % 2 = 0 := by simpa [counter] using hnat
  omega

/-- Between two equal even values there were no batches, or `2 ^ 63` and more. -/
theorem counter_eq {begun batches : Nat} (heq : counter begun false = counter batches false) (hle : begun ≤ batches)
    (hshort : batches < begun + 2 ^ 63) : begun = batches := by
  have hnat := congrArg BitVec.toNat heq
  simp only [counter, BitVec.toNat_ofNat, Bool.toNat_false] at hnat
  omega

/-- What holds of a loop. In a turn that began between two batches it sees one memory until the next batch. -/
def LoopOk (s : State) (l : Loop) : Prop :=
  l.query.Existing s.orders ∧
    match l.phase with
    | .reading id begun rest =>
        begun ≤ s.batches ∧ ∃ inProgress : Bool, (inProgress = true → 0 < begun) ∧ id = counter begun inProgress ∧
          (inProgress = false → begun = s.batches → s.batchInProgress = false ∧ Reads.Path s.mem l.query.reads rest)
    | _ => True

/-- What holds in every state. `begun` says that a batch in progress has been counted. -/
structure Sound (s : State) : Prop where
  begun : s.batchInProgress = true → 0 < s.batches
  relabelId : s.relabelId = counter s.batches s.batchInProgress
  represents : s.batchInProgress = false → ∀ o, Represents s.mem (s.orders o)
  loops : ∀ i l, s.loops i = some l → LoopOk s l

/-- No batch has begun, and no loop runs. -/
theorem Initial.sound {s : State} (h : Initial s) : Sound s where
  begun := by
    rw [h.idle]
    simp
  relabelId := by
    rw [h.relabelId, h.batches, h.idle]
    rfl
  represents := fun _ => h.represents
  loops := by
    intro i l hl
    rw [h.loops] at hl
    cases hl

/-- A loop stays as it should be while others move: between batches they do not touch what it reads. When a batch
    begins or ends, the loop either notices it in the counter, or its turn is counted as one that began before. -/
theorem LoopOk.frame {s s' : State} {l : Loop} (h : LoopOk s l) (horders : ∀ o, ∀ z ∈ s.orders o, z ∈ s'.orders o)
    (hle : s.batches ≤ s'.batches)
    (hidle : s'.batches = s.batches → s.batchInProgress = false →
      s'.batchInProgress = false ∧ ∀ loc, Owned s.orders loc → s'.mem loc = s.mem loc) : LoopOk s' l := by
  obtain ⟨q, phase⟩ := l
  obtain ⟨hq, hphase⟩ := h
  refine ⟨hq.mono horders, ?_⟩
  match phase with
  | .start => trivial
  | .exited race => trivial
  | .reading id begun rest =>
      obtain ⟨hbegun, inProgress, hpos, hid, hpath⟩ := hphase
      refine ⟨Nat.le_trans hbegun hle, inProgress, hpos, hid, ?_⟩
      intro hstart heq
      have heq : begun = s'.batches := heq
      obtain ⟨hquiet, hpath⟩ := hpath hstart (by omega)
      obtain ⟨hquiet', hsame⟩ := hidle (by omega) hquiet
      exact ⟨hquiet', hpath.frame hq.within hsame⟩

/-- A read of the loop itself: it follows the path of its query in the memory, or its turn ends and the next one
    starts. -/
theorem Loop.step_ok {s : State} {l : Loop} (h : Sound s) (hl : LoopOk s l) : LoopOk s (l.step s) := by
  obtain ⟨q, phase⟩ := l
  obtain ⟨hq, hphase⟩ := hl
  match phase with
  | .start =>
      refine ⟨hq, Nat.le_refl _, s.batchInProgress, h.begun, h.relabelId, ?_⟩
      intro hidle _
      exact ⟨hidle, .refl⟩
  | .exited race => exact ⟨hq, trivial⟩
  | .reading id begun (.read l next) =>
      obtain ⟨hbegun, inProgress, hpos, hid, hpath⟩ := hphase
      refine ⟨hq, hbegun, inProgress, hpos, hid, ?_⟩
      intro hstart heq
      obtain ⟨hquiet, hpath⟩ := hpath hstart heq
      exact ⟨hquiet, hpath.read⟩
  | .reading id begun (.ret race) =>
      show LoopOk s (if _ then _ else _)
      split
      · exact ⟨hq, trivial⟩
      · exact ⟨hq, trivial⟩

/-- **A loop that exits has read one memory**, and no batch is in progress. -/
theorem LoopOk.exit {s : State} {q : Query} {id : BitVec 64} {begun : Nat} {race : Bool} (h : Sound s)
    (hl : LoopOk s ⟨q, .reading id begun (.ret race)⟩) (heven : id &&& 1 = 0) (hid : id = s.relabelId)
    (hshort : s.batches < begun + 2 ^ 63) : s.batchInProgress = false ∧ race = q.reads.run s.mem := by
  obtain ⟨-, hle, inProgress, hpos, rfl, hpath⟩ := hl
  -- both values of the counter are even, so that neither was taken during a batch
  have hstart := counter_even hpos heven
  have hidle : s.batchInProgress = false := by
    apply counter_even h.begun
    rw [← h.relabelId, ← hid]
    exact heven
  have heq : begun = s.batches := by
    apply counter_eq _ hle hshort
    rw [hstart, h.relabelId, hidle] at hid
    exact hid
  obtain ⟨-, hpath⟩ := hpath hstart heq
  exact ⟨hidle, hpath.run⟩

/-- The counter goes on by one at the beginning and the end of a batch. -/
theorem counter_begin (batches : Nat) : counter batches false + 1 = counter (batches + 1) true := by
  apply BitVec.eq_of_toNat_eq
  simp only [counter, BitVec.toNat_add, BitVec.toNat_ofNat, Bool.toNat_false, Bool.toNat_true]
  rw [show BitVec.toNat (1 : BitVec 64) = 1 from rfl]
  omega

/-- The counter goes on by one at the end of a batch, too. -/
theorem counter_end {batches : Nat} (hpos : 0 < batches) : counter batches true + 1 = counter batches false := by
  apply BitVec.eq_of_toNat_eq
  simp only [counter, BitVec.toNat_add, BitVec.toNat_ofNat, Bool.toNat_false, Bool.toNat_true]
  rw [show BitVec.toNat (1 : BitVec 64) = 1 from rfl]
  omega

/-- An insert removes no node. -/
theorem mem_update_insertAfter {s : State} {o : Order} {base n : Name} (hbase : base ∈ s.orders o) (o' : Order)
    {z : Name} (hz : z ∈ s.orders o') :
    z ∈ Function.update s.orders o (insertAfter base n (s.orders o)) o' := by
  by_cases ho : o' = o
  · subst ho
    rw [Function.update_self]
    exact (mem_insertAfter hbase).mpr (Or.inr hz)
  · rw [Function.update_of_ne ho]
    exact hz

/-- A loop is replaced by one that is as it should be. -/
theorem Sound.setLoop {s : State} {l : Loop} (h : Sound s) (i : Nat) (hl : LoopOk s l) :
    Sound { s with loops := Function.update s.loops i (some l) } := by
  have hsame : ∀ l', LoopOk s l' → LoopOk { s with loops := Function.update s.loops i (some l) } l' :=
    fun l' hl' => hl'.frame (fun _ _ hz => hz) (Nat.le_refl _) fun _ hidle => ⟨hidle, fun _ _ => rfl⟩
  refine ⟨h.begun, h.relabelId, h.represents, ?_⟩
  intro i' l' hl'
  by_cases hi : i' = i
  · subst hi
    obtain rfl : l = l' := by simpa using hl'
    exact hsame l hl
  · have hl' : s.loops i' = some l' := by simpa [hi] using hl'
    exact hsame l' (h.loops i' l' hl')

/-- **One step** keeps all of this. By the action: batches change the counter and the memory, inserts a part of the
    memory that no loop reads, and a read only its own loop. -/
theorem Sound.step {s s' : State} {a : Action} (h : Sound s) (hallowed : Allowed s a)
    (hstep : step s a = some s') : Sound s' := by
  have hcases := step_cases hstep
  cases a with
  | beginBatch =>
      obtain ⟨hidle, rfl⟩ := hcases
      refine ⟨fun _ => Nat.succ_pos _, ?_, (fun hcontra => nomatch hcontra), ?_⟩
      · show s.relabelId + 1 = _
        rw [h.relabelId, hidle]
        exact counter_begin _
      · intro i l hl
        refine (h.loops i l hl).frame (fun _ _ hz => hz) (Nat.le_succ _) ?_
        intro heq
        have heq : s.batches + 1 = s.batches := heq
        omega
  | update loc v =>
      obtain ⟨hprogress, rfl⟩ := hcases
      refine ⟨h.begun, h.relabelId, ?_, ?_⟩
      · intro hidle
        cases hprogress.symm.trans hidle
      · intro i l hl
        refine (h.loops i l hl).frame (fun _ _ hz => hz) (Nat.le_refl _) ?_
        intro _ hidle
        cases hprogress.symm.trans hidle
  | endBatch =>
      obtain ⟨hprogress, rfl⟩ := hcases
      refine ⟨(fun hcontra => nomatch hcontra), ?_, fun _ => hallowed, ?_⟩
      · show s.relabelId + 1 = _
        rw [h.relabelId, hprogress]
        exact counter_end (h.begun hprogress)
      · intro i l hl
        refine (h.loops i l hl).frame (fun _ _ hz => hz) (Nat.le_refl _) ?_
        intro _ hidle
        cases hprogress.symm.trans hidle
  | insert o base n list label =>
      obtain ⟨hbase, hnew, hrep⟩ := hallowed
      dsimp only at hcases
      subst hcases
      refine ⟨h.begun, h.relabelId, ?_, ?_⟩
      · intro hidle o'
        show Represents (OrderMaint.addNode s.mem n list label) (Function.update s.orders o _ o')
        by_cases ho : o' = o
        · subst ho
          rw [Function.update_self]
          exact hrep hidle
        · rw [Function.update_of_ne ho]
          exact (h.represents hidle o').addNode (hnew o') list label
      · intro i l hl
        refine (h.loops i l hl).frame (fun o' z hz => mem_update_insertAfter hbase o' hz) (Nat.le_refl _) ?_
        intro _ hidle
        exact ⟨hidle, fun loc hloc => addNode_owned hnew hloc s.mem list label⟩
  | query i q =>
      dsimp only at hcases
      subst hcases
      exact h.setLoop i ⟨hallowed, trivial⟩
  | read i =>
      obtain ⟨l, hloop, rfl⟩ := hcases
      exact h.setLoop i (Loop.step_ok h (h.loops i l hloop))

/-! ## Accepted queries

The step at which a loop exits is its own read of the counter. By `LoopOk.exit` all reads of this turn were from one
memory, and that memory is order-preserving. -/

/-- The steps of the interleavings in which no turn is overtaken by `2 ^ 63` batches. -/
def AllowedShort (s : State) (a : Action) : Prop := Allowed s a ∧ Short s a

/-- Only an insert changes an abstract list. -/
theorem orders_step {s s' : State} {a : Action} (hstep : step s a = some s') :
    (∃ o base n list label, a = .insert o base n list label ∧
        s'.orders = Function.update s.orders o (insertAfter base n (s.orders o))) ∨ s'.orders = s.orders := by
  have hcases := step_cases hstep
  cases a with
  | insert o base n list label =>
      dsimp only at hcases
      subst hcases
      exact Or.inl ⟨o, base, n, list, label, rfl, rfl⟩
  | beginBatch | update loc v | endBatch =>
      obtain ⟨-, rfl⟩ := hcases
      exact Or.inr rfl
  | query i q =>
      dsimp only at hcases
      subst hcases
      exact Or.inr rfl
  | read i =>
      obtain ⟨l, -, rfl⟩ := hcases
      exact Or.inr rfl

/-- The order of two nodes never changes. -/
theorem before_reaches {ok : State → Action → Prop} (hok : ∀ s a, ok s a → Allowed s a) {s s' : State}
    (h : Reaches step ok s s') {o : Order} {x y : Name} (hx : x ∈ s.orders o) (hy : y ∈ s.orders o) :
    x ∈ s'.orders o ∧ y ∈ s'.orders o ∧ (Before (s'.orders o) x y ↔ Before (s.orders o) x y) := by
  apply h.invariant fun s' =>
    x ∈ s'.orders o ∧ y ∈ s'.orders o ∧ (Before (s'.orders o) x y ↔ Before (s.orders o) x y)
  · exact ⟨hx, hy, Iff.rfl⟩
  · intro s₁ a s₂ ⟨hx₁, hy₁, hiff⟩ ha hstep
    rcases orders_step hstep with ⟨o', base, n, list, label, rfl, horders⟩ | horders
    · obtain ⟨hbase, hnew, -⟩ := hok s₁ _ ha
      rw [horders]
      refine ⟨mem_update_insertAfter hbase o hx₁, mem_update_insertAfter hbase o hy₁, Iff.trans ?_ hiff⟩
      by_cases ho : o = o'
      · subst ho
        rw [Function.update_self]
        have hxn : x ≠ n := fun heq => hnew o (heq ▸ hx₁)
        have hyn : y ≠ n := fun heq => hnew o (heq ▸ hy₁)
        exact before_insertAfter hbase hxn hyn
      · rw [Function.update_of_ne ho]
    · rw [horders]
      exact ⟨hx₁, hy₁, hiff⟩

/-- A loop exits by its own read. -/
theorem exited_step {s s' : State} {a : Action} (hstep : step s a = some s') {i : Nat} {q : Query} {race : Bool}
    (hloop : s'.loops i = some ⟨q, .exited race⟩) :
    s.loops i = some ⟨q, .exited race⟩ ∨
      ∃ id begun, a = .read i ∧ s.loops i = some ⟨q, .reading id begun (.ret race)⟩ ∧ id &&& 1 = 0 ∧
        id = s.relabelId := by
  have hcases := step_cases hstep
  cases a with
  | beginBatch | update loc v | endBatch =>
      obtain ⟨-, rfl⟩ := hcases
      exact Or.inl hloop
  | insert o base n list label =>
      dsimp only at hcases
      subst hcases
      exact Or.inl hloop
  | query j q' =>
      dsimp only at hcases
      subst hcases
      by_cases hj : i = j
      · subst hj
        simp at hloop
      · exact Or.inl (by simpa [hj] using hloop)
  | read j =>
      obtain ⟨⟨q', phase⟩, hj, rfl⟩ := hcases
      by_cases hij : i = j
      · subst hij
        have hloop : Loop.step s ⟨q', phase⟩ = ⟨q, .exited race⟩ := by simpa using hloop
        match phase with
        | .start => simp [Loop.step] at hloop
        | .exited race' =>
            rw [← hloop]
            exact Or.inl hj
        | .reading id begun (.read l next) => simp [Loop.step] at hloop
        | .reading id begun (.ret race') =>
            -- the test of the loop
            by_cases htest : id &&& 1 = 0 ∧ id = s.relabelId
            · have hloop : (⟨q', .exited race'⟩ : Loop) = ⟨q, .exited race⟩ := by
                rwa [Loop.step, if_pos htest] at hloop
              cases hloop
              exact Or.inr ⟨id, begun, rfl, hj, htest⟩
            · rw [Loop.step, if_neg htest] at hloop
              cases hloop
      · exact Or.inl (by simpa [hij] using hloop)

/-- **An accepted query is not torn.** The value of a loop that has exited is the one `om_precedes` gives in a state
with no batch in progress, where it is the order of the abstract lists then and later. -/
theorem query_not_torn {s₀ s : State} (h₀ : Initial s₀) (h : Reaches step AllowedShort s₀ s) {i : Nat} {q : Query}
    {race : Bool} (hloop : s.loops i = some ⟨q, .exited race⟩) :
    ∃ s', Reaches step AllowedShort s₀ s' ∧ Reaches step AllowedShort s' s ∧ s'.batchInProgress = false ∧
      q.Existing s'.orders ∧ race = q.value (fun x y => (omPrecedes x y).run s'.mem) ∧
      ∀ o, ∀ x ∈ s'.orders o, ∀ y ∈ s'.orders o,
        ((omPrecedes (some x) (some y)).run s'.mem = true ↔ Before (s.orders o) x y) := by
  have hinv : Reaches step AllowedShort s₀ s ∧ Sound s ∧ ∀ i q race, s.loops i = some ⟨q, .exited race⟩ →
      ∃ s', Reaches step AllowedShort s₀ s' ∧ Reaches step AllowedShort s' s ∧ Sound s' ∧
        s'.batchInProgress = false ∧ q.Existing s'.orders ∧ race = q.reads.run s'.mem := by
    apply h.invariant fun s => Reaches step AllowedShort s₀ s ∧ Sound s ∧
      ∀ i q race, s.loops i = some ⟨q, .exited race⟩ →
        ∃ s', Reaches step AllowedShort s₀ s' ∧ Reaches step AllowedShort s' s ∧ Sound s' ∧
          s'.batchInProgress = false ∧ q.Existing s'.orders ∧ race = q.reads.run s'.mem
    · refine ⟨.refl, h₀.sound, ?_⟩
      intro i q race hloop
      rw [h₀.loops] at hloop
      cases hloop
    · intro s₁ a s₂ ⟨hreach, hsound, hexited⟩ hok hstep
      have hlast : Reaches step AllowedShort s₁ s₂ := .of_step hok hstep
      refine ⟨hreach.trans hlast, hsound.step hok.1 hstep, ?_⟩
      intro i q race hloop
      rcases exited_step hstep hloop with hbefore | ⟨id, begun, rfl, hloop, heven, hid⟩
      · obtain ⟨s', hs', hs₁, hrest⟩ := hexited i q race hbefore
        exact ⟨s', hs', hs₁.trans hlast, hrest⟩
      · -- the state in which the loop makes its test
        obtain ⟨hidle, hrace⟩ := (hsound.loops i _ hloop).exit hsound heven hid (hok.2 _ _ _ _ hloop)
        exact ⟨s₁, hreach, hlast, hsound, hidle, (hsound.loops i _ hloop).1, hrace⟩
  obtain ⟨s', hreach, hreach', hsound, hidle, hexisting, hrace⟩ := hinv.2.2 i q race hloop
  refine ⟨s', hreach, hreach', hidle, hexisting, hrace.trans (q.run_reads s'.mem), ?_⟩
  intro o x hx y hy
  obtain ⟨-, -, hbefore⟩ := before_reaches (fun _ _ hok => hok.1) hreach' hx hy
  rw [hbefore]
  exact (hsound.represents hidle o).precedes hx hy

/-- A memory with one list for each structure; the nodes from `10 t` on are in the list `t`. -/
def leafMemory (label : Name → Nat) : Loc → Nat
  | .list n => n / 10
  | .label n => label n
  | .above l => l
  | .tlLabel _ => 0

/-- Such a memory is order-preserving when the labels increase along the list. -/
theorem represents_leafMemory {label : Name → Nat} {t : TlName} {L : List Name} (hlist : ∀ n ∈ L, n / 10 = t)
    (hincreasing : L.Pairwise fun x y => label x < label y) (hlt : ∀ n ∈ L, label n < 2 ^ 64) (hnodup : L.Nodup) :
    Represents (leafMemory label) L := by
  let nodes : List BlNode := L.map fun n => ⟨n, label n⟩
  have hnames : nodes.map BlNode.name = L := by
    rw [List.map_map]
    exact List.map_id L
  refine ⟨oneLeaf t (t + 1) nodes, id, wellFormed_oneLeaf (Nat.lt_succ_self t) ⟨?_, ?_⟩ (hnames ▸ hnodup),
    ⟨?_, ?_, ?_, ?_⟩, ?_⟩
  · exact List.pairwise_map.mpr hincreasing
  · intro b hb
    obtain ⟨n, hn, rfl⟩ := List.mem_map.mp hb
    exact hlt n hn
  · intro a _
    rfl
  · intro a ha
    rw [List.mem_singleton.mp ha]
    rfl
  · intro a ha b hb
    rw [List.mem_singleton.mp ha] at hb ⊢
    obtain ⟨n, hn, rfl⟩ := List.mem_map.mp hb
    exact hlist n hn
  · intro a ha b hb
    rw [List.mem_singleton.mp ha] at hb
    obtain ⟨n, -, rfl⟩ := List.mem_map.mp hb
    rfl
  · show nodes.map BlNode.name ++ [] = L
    rw [List.append_nil, hnames]

/-- The labels `0`, `2 ^ 62` and `2 ^ 63` in both structures. -/
def wideLabel (n : Name) : Nat := if n % 10 = 7 then 0 else if n % 10 = 9 then 2 ^ 62 else 2 ^ 63

/-- The nodes of both structures in the examples. -/
def threeNodes : Order → List Name
  | .english => [7, 9, 8]
  | .hebrew => [17, 19, 18]

/-- No batch has begun. -/
def threeStart : State where
  mem := leafMemory wideLabel
  relabelId := 0
  batchInProgress := false
  loops := fun _ => none
  orders := threeNodes
  batches := 0

/-- The examples start in a state that the claims are about. -/
theorem initial_start : Initial threeStart where
  relabelId := rfl
  idle := rfl
  loops := fun _ => rfl
  represents := by
    rintro (_ | _)
    · exact represents_leafMemory (t := 0) (by decide) (by decide) (by decide) (by decide)
    · exact represents_leafMemory (t := 1) (by decide) (by decide) (by decide) (by decide)
  batches := rfl

/-- The state with one loop. -/
def State.withLoop (s : State) (l : Loop) : State := { s with loops := Function.update s.loops 0 (some l) }

/-- A step of the only loop. -/
theorem step_read (s : State) (l : Loop) : step (s.withLoop l) (.read 0) = some (s.withLoop (l.step s)) := by
  have hloop : (s.withLoop l).loops 0 = some l := by simp [State.withLoop]
  have hstep : l.step (s.withLoop l) = l.step s := by
    obtain ⟨q, phase⟩ := l
    match phase with
    | .start | .exited _ | .reading _ _ (.ret _) | .reading _ _ (.read _ _) => rfl
  simp only [step, hloop, Option.map_some, hstep]
  simp only [State.withLoop, Function.update_idem]

/-- Any number of steps of it. -/
theorem reaches_reads (ok : State → Action → Prop) (s : State) (l : Loop) (n : Nat)
    (hok : ∀ l, ok (s.withLoop l) (.read 0)) :
    Reaches step ok (s.withLoop l) (s.withLoop ((Loop.step s)^[n] l)) := by
  induction n with
  | zero => exact .refl
  | succ n ih =>
      rw [Function.iterate_succ_apply']
      exact ih.trans (.of_step (hok _) (step_read s _))

/-- Is `9` before `8`? -/
def nineBeforeEight : Query := .ask (some 9) (some 8) .ret

/-- Both nodes are in the english structure. -/
theorem existing_query : nineBeforeEight.Existing threeNodes := by
  refine ⟨⟨.english, ?_, ?_⟩, fun _ => trivial⟩
  · rintro z ⟨⟩
    decide
  · rintro z ⟨⟩
    decide

/-- The labels after the first batch. -/
def narrowLabel (n : Name) : Nat := if n = 9 then 2 ^ 58 else if n = 8 then 2 ^ 59 else wideLabel n

/-- The two updates of the batch. -/
theorem update_narrow : Function.update (Function.update (leafMemory wideLabel) (.label 9) (2 ^ 58)) (.label 8)
    (2 ^ 59) = leafMemory narrowLabel := by
  funext loc
  cases loc with
  | label n =>
      by_cases h8 : n = 8
      · subst h8
        rfl
      · by_cases h9 : n = 9
        · subst h9
          rfl
        · simp [Function.update, leafMemory, narrowLabel, h8, h9]
  | list n | above l | tlLabel t => simp [Function.update, leafMemory]

/-- The batch leaves the order as it was. -/
theorem represents_narrow (o : Order) : Represents (leafMemory narrowLabel) (threeNodes o) := by
  cases o with
  | english => exact represents_leafMemory (t := 0) (by decide) (by decide) (by decide) (by decide)
  | hebrew => exact represents_leafMemory (t := 1) (by decide) (by decide) (by decide) (by decide)

/-- The state after the first batch. -/
def threeRelabelled : State := { threeStart with mem := leafMemory narrowLabel, relabelId := 2, batches := 1 }

/-- The query has read the first of its labels. -/
def halfRead : Loop := (Loop.step threeStart)^[4] ⟨nineBeforeEight, .start⟩

/-- **A batch in the middle of a turn**: it begins after the first label is read, and writes both labels. -/
theorem reaches_halfRead : Reaches step AllowedShort threeStart (threeRelabelled.withLoop halfRead) := by
  have hquery : Reaches step AllowedShort threeStart (threeStart.withLoop ⟨nineBeforeEight, .start⟩) :=
    .of_step (a := .query 0 nineBeforeEight) ⟨existing_query, trivial⟩ rfl
  -- up to the first label
  have hreads := reaches_reads AllowedShort threeStart ⟨nineBeforeEight, .start⟩ 4 fun l => by
    refine ⟨trivial, ?_⟩
    intro q id begun rest _
    exact Nat.lt_of_lt_of_le (Nat.two_pow_pos 63) (Nat.le_add_left _ _)
  -- the batch
  let s₁ : State := ({ threeStart with relabelId := 1, batchInProgress := true, batches := 1 } : State).withLoop halfRead
  have hbegin : Reaches step AllowedShort (threeStart.withLoop halfRead) s₁ :=
    .of_step (a := .beginBatch) ⟨trivial, trivial⟩ rfl
  have hnine : Reaches step AllowedShort s₁ { s₁ with mem := Function.update s₁.mem (.label 9) (2 ^ 58) } :=
    .of_step (a := .update (.label 9) (2 ^ 58)) ⟨trivial, trivial⟩ rfl
  have height : Reaches step AllowedShort { s₁ with mem := Function.update s₁.mem (.label 9) (2 ^ 58) }
      { s₁ with mem := leafMemory narrowLabel } := by
    rw [← update_narrow]
    exact .of_step (a := .update (.label 8) (2 ^ 59)) ⟨trivial, trivial⟩ rfl
  have hend : Reaches step AllowedShort { s₁ with mem := leafMemory narrowLabel } (threeRelabelled.withLoop halfRead) :=
    .of_step (a := .endBatch) ⟨represents_narrow, trivial⟩ rfl
  exact ((((hquery.trans hreads).trans hbegin).trans hnine).trans height).trans hend

/-- The turn in which the batch came ends with a test that fails, and the next turn is accepted. -/
theorem query_not_torn_halfRead : ∃ s', Reaches step AllowedShort threeStart s' ∧
    Reaches step AllowedShort s' (threeRelabelled.withLoop ⟨nineBeforeEight, .exited true⟩) ∧
      s'.batchInProgress = false ∧ nineBeforeEight.Existing s'.orders ∧
      true = nineBeforeEight.value (fun x y => (omPrecedes x y).run s'.mem) ∧
      ∀ o, ∀ x ∈ s'.orders o, ∀ y ∈ s'.orders o,
        ((omPrecedes (some x) (some y)).run s'.mem = true ↔ Before (threeNodes o) x y) := by
  have hrest := reaches_reads AllowedShort threeRelabelled halfRead 8 fun l => by
    refine ⟨trivial, ?_⟩
    intro q id begun rest _
    exact Nat.lt_of_lt_of_le (Nat.one_lt_two_pow (by decide)) (Nat.le_add_left _ _)
  have hloop : (Loop.step threeRelabelled)^[8] halfRead = ⟨nineBeforeEight, .exited true⟩ := rfl
  rw [hloop] at hrest
  exact query_not_torn initial_start (reaches_halfRead.trans hrest) (i := 0) rfl

/-! ## A counter that comes round

The bound is needed. With `2 ^ 63` batches between two reads the counter has its old value again, and the turn looks
as if nothing had happened. -/

/-- Batches that change nothing. -/
theorem reaches_batches {s : State} (hidle : s.batchInProgress = false)
    (hrep : ∀ o, Represents s.mem (s.orders o)) (n : Nat) :
    Reaches step Allowed s
      { s with relabelId := s.relabelId + BitVec.ofNat 64 (2 * n), batches := s.batches + n } := by
  induction n with
  | zero =>
      have hsame : { s with relabelId := s.relabelId + BitVec.ofNat 64 (2 * 0), batches := s.batches + 0 } = s := by
        simp
      rw [hsame]
      exact .refl
  | succ n ih =>
      refine ih.trans ?_
      have hbegin : step { s with relabelId := s.relabelId + BitVec.ofNat 64 (2 * n), batches := s.batches + n }
          .beginBatch = some { s with
            relabelId := s.relabelId + BitVec.ofNat 64 (2 * n) + 1
            batchInProgress := true
            batches := s.batches + n + 1 } := by
        simp [step, hidle]
      have hend : step { s with
            relabelId := s.relabelId + BitVec.ofNat 64 (2 * n) + 1
            batchInProgress := true
            batches := s.batches + n + 1 } .endBatch = some { s with
              relabelId := s.relabelId + BitVec.ofNat 64 (2 * (n + 1))
              batches := s.batches + (n + 1) } := by
        have hcount : s.relabelId + BitVec.ofNat 64 (2 * n) + 1 + 1 =
            s.relabelId + BitVec.ofNat 64 (2 * (n + 1)) := by
          rw [Nat.mul_add, BitVec.ofNat_add, BitVec.add_assoc, BitVec.add_assoc]
          rfl
        simp only [step, if_true, hcount, hidle, Nat.add_assoc]
      exact (Reaches.of_step trivial hbegin).trans (.of_step (a := .endBatch) hrep hend)

/-- The state after `2 ^ 63` batches: the counter is where it was. -/
def threeAround : State := { threeStart with mem := leafMemory narrowLabel, batches := 2 ^ 63 }

/-- **A query is torn** when `2 ^ 63` batches begin between its reads: it reads one label before them and the other
behind them, and the counter is the same. -/
theorem reaches_torn : Reaches step Allowed threeStart (threeAround.withLoop ⟨nineBeforeEight, .exited false⟩) := by
  have hfirst : Reaches step Allowed threeStart (threeRelabelled.withLoop halfRead) := reaches_halfRead.mono fun _ _ hok => hok.1
  -- then come batches that change nothing, until the counter is `0` again
  have hbatches : Reaches step Allowed (threeRelabelled.withLoop halfRead) (threeAround.withLoop halfRead) := by
    have hround := reaches_batches (s := threeRelabelled.withLoop halfRead) rfl represents_narrow (2 ^ 63 - 1)
    have hid : (threeRelabelled.withLoop halfRead).relabelId + BitVec.ofNat 64 (2 * (2 ^ 63 - 1)) = 0 := by decide
    have hcount : (threeRelabelled.withLoop halfRead).batches + (2 ^ 63 - 1) = 2 ^ 63 :=
      Nat.add_sub_cancel' (Nat.two_pow_pos 63)
    rw [hid, hcount] at hround
    exact hround
  -- the second label, and the test
  have hlast := reaches_reads Allowed threeAround halfRead 2 fun _ => trivial
  have hloop : (Loop.step threeAround)^[2] halfRead = ⟨nineBeforeEight, .exited false⟩ := rfl
  rw [hloop] at hlast
  exact (hfirst.trans hbatches).trans hlast

/-- With any number of batches during a turn, the value of an accepted query may be that of no state without a batch
in progress. -/
theorem torn_query : ¬∀ (s₀ s : State) (i : Nat) (q : Query) (race : Bool), Initial s₀ → Reaches step Allowed s₀ s →
    s.loops i = some ⟨q, .exited race⟩ → ∃ s', Reaches step Allowed s₀ s' ∧ s'.batchInProgress = false ∧
      race = q.value fun x y => (omPrecedes x y).run s'.mem := by
  intro hclaim
  obtain ⟨s', hreach, hidle, hvalue⟩ :=
    hclaim threeStart _ 0 nineBeforeEight false initial_start reaches_torn rfl
  have hsound : Sound s' := by
    apply hreach.invariant Sound initial_start.sound
    intro s a s' hsound hok hstep
    exact hsound.step hok hstep
  have hnine : 9 ∈ threeStart.orders .english := by decide
  have height : 8 ∈ threeStart.orders .english := by decide
  obtain ⟨hx, hy, hbefore⟩ := before_reaches (fun _ _ hok => hok) hreach hnine height
  have hprecedes : (omPrecedes (some 9) (some 8)).run s'.mem = true :=
    ((hsound.represents hidle .english).precedes hx hy).mpr (hbefore.mpr (by decide))
  rw [show nineBeforeEight.value (fun x y => (omPrecedes x y).run s'.mem) = true from hprecedes] at hvalue
  cases hvalue

end FOrder.OrderMaint
