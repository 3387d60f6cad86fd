import FOrder.Rdtool.ShadowStack
import FOrder.Serial.Facts

/-!
# `Rdtool.Linked` — the tool follows the program

`Linked s t`: the frames of the tool are those of the program, each with the fields that its place on the stack
calls for. From a linked state no assertion fails, and each callback does what one explicit function below says
(`called`, `detached`, …), so that the invariants of the orders and of the lists need not look into the callbacks
again.

A frame has its `current` node exactly when it is on top, or below a function that was called; it has a `cont`
exactly when a spawned child or a future is above it; and it has a sync node and a sync list exactly when it is
unsynced. These are the fields that the assertions ask for, and `FrameLinked` says so, beside the ids that the lists
are made with.

For each event there is a lemma `linked_…` with three parts: the frames that the tool has on top, what `step` comes
to, by the explicit function, and that the states are linked again.
-/

namespace FOrder.Rdtool

open Serial (State Event FutId Strand Step Ok StackOk)

/-- The id of the future that a frame runs in; `0` is the root. -/
def futureOf : List Serial.Frame → Nat
  | [] => 0
  | f :: rest =>
      match f.kind with
      | .future fut _ => fut + 1
      | _ => futureOf rest

/-- The future depends on the kinds of the frames only. -/
theorem futureOf_of_kind {f f' : Serial.Frame} {rest : List Serial.Frame} (hk : f'.kind = f.kind) :
    futureOf (f' :: rest) = futureOf (f :: rest) := by
  simp [futureOf, hk]

/-- A frame of the tool: `forked` says that the frame above it is a spawned child or a future. -/
structure FrameLinked (n : Nat) (forked : Bool) (f : Serial.Frame) (futureId : Nat) (g : FrameData) :
    Prop where
  current : g.current.isSome = !forked
  cont : g.cont.isSome = forked
  sync : g.sync.isSome = f.unsynced
  syncList : g.syncList.isSome = f.unsynced
  helper : g.helper = decide (f.kind ≠ .function)
  futureId : g.futureId = futureId % 2 ^ 32
  currentList_lt : g.currentList < n
  syncList_lt : ∀ l, g.syncList = some l → l < n

/-- Frame by frame, innermost first. -/
def FramesLinked (n : Nat) : Bool → List Serial.Frame → List FrameData → Prop
  | _, [], [] => True
  | forked, f :: rest, g :: grest =>
      FrameLinked n forked f (futureOf (f :: rest)) g ∧
        FramesLinked n (decide (f.kind ≠ .function)) rest grest
  | _, _, _ => False

/-- The tool beside the program: the frames, what is current, and the futures with the lists that they have left. -/
structure Linked (s : State) (t : Tool) : Prop where
  frames : FramesLinked t.lists.length false s.frames t.stack
  current : ∀ (g : FrameData) (grest : List FrameData), t.stack = g :: grest →
    g.current = some t.current.node ∧ g.currentList = t.current.list ∧ g.futureId = t.current.futureId
  nextFutureId : t.nextFutureId = (s.futures.length + 1) % 2 ^ 32
  handles_length : t.handles.length = s.futures.length
  handles : ∀ (fut : FutId) (fin : Serial.Finished), s.futures[fut]? = some (some fin) →
    ∃ l, t.handles[fut]? = some (some l) ∧ l < t.lists.length

/-- More lists do no harm. -/
theorem FrameLinked.mono {n m : Nat} {forked : Bool} {f : Serial.Frame} {futureId : Nat} {g : FrameData}
    (h : FrameLinked n forked f futureId g) (hnm : n ≤ m) : FrameLinked m forked f futureId g :=
  ⟨h.current, h.cont, h.sync, h.syncList, h.helper, h.futureId, Nat.lt_of_lt_of_le h.currentList_lt hnm,
    fun l hl => Nat.lt_of_lt_of_le (h.syncList_lt l hl) hnm⟩

theorem FramesLinked.mono {n m : Nat} {frames : List Serial.Frame} (hnm : n ≤ m) :
    ∀ {forked : Bool} {gs : List FrameData}, FramesLinked n forked frames gs →
      FramesLinked m forked frames gs := by
  induction frames with
  | nil =>
      intro forked gs h
      cases gs with
      | nil => trivial
      | cons g grest => exact h.elim
  | cons f rest ih =>
      intro forked gs h
      cases gs with
      | nil => exact h.elim
      | cons g grest => exact ⟨h.1.mono hnm, ih h.2⟩

/-- The tool has a frame where the program has one. -/
theorem FramesLinked.exists_cons {n : Nat} {forked : Bool} {f : Serial.Frame} {rest : List Serial.Frame}
    {gs : List FrameData} (h : FramesLinked n forked (f :: rest) gs) :
    ∃ g grest, gs = g :: grest ∧ FrameLinked n forked f (futureOf (f :: rest)) g ∧
      FramesLinked n (decide (f.kind ≠ .function)) rest grest := by
  cases gs with
  | nil => exact h.elim
  | cons g grest => exact ⟨g, grest, rfl, h⟩

/-! ## What the callbacks do

The effect of each callback on a frame that is linked, as a function with no failure in it. The frame of the source
has fields that are set at one callback and read at a later one, so each function is a record update that names the
fields it touches and leaves the others to be read through it.

`openGroup`, `newList` and `mergeList` are used by several callbacks, and get their lemmas here once. -/

namespace Tool

/-- After `do_enter_begin` below the frame `g`. -/
def called (t : Tool) (g : FrameData) (grest : List FrameData) : Tool :=
  { t with
    stack := ⟨g.current, none, none, g.currentList, none, none, false, g.futureId⟩ :: g :: grest
    capacity := pushCapacity t.capacity (grest.length + 1) }

/-- The parent `g` after a call has returned. -/
def returned (t : Tool) (a g : FrameData) (grest : List FrameData) : Tool :=
  { t with
    stack := { g with current := a.current, currentList := a.currentList } :: grest
    capacity := popCapacity t.capacity (grest.length + 1)
    current := ⟨t.current.node, a.currentList, g.futureId⟩ }

/-- After `do_detach_begin` at node `c` of the frame `g`. -/
def detached (t : Tool) (g : FrameData) (grest : List FrameData) (c : OmNode) : Tool :=
  let o := t.openGroup g c
  { o.1 with
    orders := insertFork o.1.orders c o.1.orders.fresh (o.1.orders.fresh + 1)
    stack := ⟨some o.1.orders.fresh, none, none, o.2.currentList, none, none, true, o.2.futureId⟩ ::
      { o.2 with current := none, cont := some (o.1.orders.fresh + 1) } :: grest
    capacity := pushCapacity o.1.capacity (grest.length + 1)
    current := ⟨o.1.orders.fresh, o.2.currentList, o.2.futureId⟩ }

/-- The frame `g` goes on at its continuation `n`; `lists` are the lists then. -/
def continued (t : Tool) (g : FrameData) (grest : List FrameData) (n : OmNode) (lists : List NodeList) :
    Tool :=
  { t with
    lists := lists
    stack := { g with current := some n, cont := none } :: grest
    capacity := popCapacity t.capacity (grest.length + 1)
    current := ⟨n, g.currentList, g.futureId⟩ }

/-- The lists after `Merge`. -/
def merged (t : Tool) (this ori : ListPtr) : List NodeList :=
  t.lists.set this ((t.lists.getD this .new).merge t.precE t.precH (t.lists.getD ori .new))

/-- The lists after a spawned child has returned to `g`. -/
def joinedLists (t : Tool) (a g : FrameData) : List NodeList :=
  if g.currentList ≠ a.currentList then t.merged (g.syncList.getD 0) a.currentList else t.lists

/-- The lists after `do_sync_begin`. -/
def syncedLists (t : Tool) (g : FrameData) : List NodeList :=
  if some g.currentList ≠ g.oriList then t.merged (g.syncList.getD 0) g.currentList else t.lists

/-- The list a frame has after `do_sync_end`. -/
def syncedList (lists : List NodeList) (g : FrameData) : ListPtr :=
  if (lists.getD (g.syncList.getD 0) .new).isEmpty then g.currentList else g.syncList.getD 0

/-- After a sync with sync node `n`. -/
def synced (t : Tool) (g : FrameData) (grest : List FrameData) (n : OmNode) : Tool :=
  { t with
    lists := t.syncedLists g
    stack := { g with
      current := some n, sync := none, currentList := syncedList (t.syncedLists g) g, syncList := none } ::
        grest
    current := ⟨n, syncedList (t.syncedLists g) g, g.futureId⟩ }

/-- After `CilkFutureCreate` at node `c` of `g`; `kept` says that its push left the frames where they were. -/
def created (t : Tool) (g : FrameData) (grest : List FrameData) (c : OmNode) (kept : Bool) : Tool :=
  let d := t.detached g grest c
  let o := t.openGroup g c
  let parent := { o.2 with current := none, cont := some (o.1.orders.fresh + 1) }
  { d with
    lists := d.lists ++ [d.createdList (d.lists.getD o.2.currentList .new) ⟨c, c⟩ g.futureId]
    stack := ⟨some o.1.orders.fresh, none, none, d.lists.length, none, none, true, d.nextFutureId⟩ ::
      (if kept then { parent with currentList := d.lists.length } else parent) :: grest
    nextFutureId := (d.nextFutureId + 1) % 2 ^ 32
    current := ⟨o.1.orders.fresh, d.lists.length, d.nextFutureId⟩
    handles := d.handles ++ [none] }

/-- The list that a finished future leaves. -/
def finishedList (t : Tool) (a : FrameData) : NodeList :=
  (t.lists.getD a.currentList .new).insert t.precE t.precH ⟨t.current.node, t.current.node⟩ a.futureId

/-- After `CilkFutureFinish` of `a`, back in `g` at `n`. -/
def finished (t : Tool) (a g : FrameData) (grest : List FrameData) (n : OmNode) (fut : FutId) : Tool :=
  { t with
    lists := t.lists ++ [t.finishedList a]
    stack := { g with current := some n, cont := none } :: grest
    capacity := popCapacity t.capacity (grest.length + 1)
    current := ⟨n, g.currentList, g.futureId⟩
    handles := t.handles.set fut (some t.lists.length) }

/-- After `CilkFutureGet` with the list of the future. -/
def got (t : Tool) (g : FrameData) (grest : List FrameData) (l : ListPtr) : Tool :=
  { t with
    lists := t.lists ++
      [(t.lists.getD g.currentList .new).union t.precE t.precH (t.lists.getD l .new)]
    stack := { g with currentList := t.lists.length } :: grest
    current := ⟨t.current.node, t.lists.length, t.current.futureId⟩ }

/-- A pointer to a list leads to one. -/
theorem getD_of_lt {t : Tool} {l : ListPtr} (h : l < t.lists.length) :
    t.lists[l]? = some (t.lists.getD l .new) := by
  rw [List.getD_eq_getElem?_getD, List.getElem?_eq_getElem h]
  rfl

/-- `Merge` of two lists that are there. -/
theorem mergeList_eq {t : Tool} {this ori : ListPtr} (hthis : this < t.lists.length)
    (hori : ori < t.lists.length) : t.mergeList this ori = some { t with lists := t.merged this ori } := by
  unfold mergeList
  rw [getD_of_lt hthis, getD_of_lt hori]
  rfl

/-- It makes no list. -/
theorem length_merged {t : Tool} (this ori : ListPtr) : (t.merged this ori).length = t.lists.length := by
  unfold merged
  exact List.length_set

/-- What `openGroup` leaves as it is. -/
theorem openGroup_fst (t : Tool) (g : FrameData) (c : OmNode) :
    (t.openGroup g c).1.stack = t.stack ∧ (t.openGroup g c).1.capacity = t.capacity ∧
      (t.openGroup g c).1.nextFutureId = t.nextFutureId ∧ (t.openGroup g c).1.handles = t.handles ∧
      t.lists.length ≤ (t.openGroup g c).1.lists.length := by
  unfold openGroup
  split
  · exact ⟨rfl, rfl, rfl, rfl, Nat.le_refl _⟩
  · exact ⟨rfl, rfl, rfl, rfl, by simp [newList]⟩

/-- What it leaves of the frame, and that it has a sync node then. -/
theorem openGroup_snd (t : Tool) (g : FrameData) (c : OmNode) :
    (t.openGroup g c).2.currentList = g.currentList ∧ (t.openGroup g c).2.futureId = g.futureId ∧
      (t.openGroup g c).2.helper = g.helper ∧ (t.openGroup g c).2.sync.isSome = true := by
  unfold openGroup
  split
  · rename_i n hn
    exact ⟨rfl, rfl, rfl, by simp [hn]⟩
  · exact ⟨rfl, rfl, rfl, rfl⟩

/-- An open group has a sync list. -/
theorem openGroup_syncList {t : Tool} {f : Serial.Frame} {futureId : Nat} {g : FrameData}
    (hg : FrameLinked t.lists.length false f futureId g) (c : OmNode) :
    (t.openGroup g c).2.syncList.isSome = true ∧
      ∀ l, (t.openGroup g c).2.syncList = some l → l < (t.openGroup g c).1.lists.length := by
  unfold openGroup
  split
  · rename_i n hn
    have hu : f.unsynced = true := by
      rw [← hg.sync, hn]
      rfl
    exact ⟨hg.syncList.trans hu, hg.syncList_lt⟩
  · refine ⟨rfl, ?_⟩
    rintro l ⟨⟩
    simp [newList]

end Tool

/-! ## Each event

The assertions of a callback are about the top frame, or about the two top ones, and about the current node and list;
`FrameLinked` has what they ask. After the callback the frames further down have not changed. The only thing that may
go wrong below the top is that the array moves at a push, and this is where `created` has two versions. -/

section Steps

variable {s : State} {t : Tool} {f : Serial.Frame} {rest : List Serial.Frame}

/-- The top frame of the tool. -/
theorem Linked.top (hl : Linked s t) (hf : s.frames = f :: rest) : ∃ g grest, t.stack = g :: grest ∧
    FrameLinked t.lists.length false f (futureOf (f :: rest)) g ∧
    FramesLinked t.lists.length (decide (f.kind ≠ .function)) rest grest ∧
    g.current = some t.current.node ∧ g.currentList = t.current.list ∧ g.futureId = t.current.futureId := by
  have hfr := hl.frames
  rw [hf] at hfr
  obtain ⟨g, grest, hg, htop, hrest⟩ := hfr.exists_cons
  exact ⟨g, grest, hg, htop, hrest, hl.current g grest hg⟩

/-- `cilk_enter_begin`: the caller's frame stays as it is, the new one gets its node, its list and its future, and
    the strand goes on. -/
theorem linked_call (hl : Linked s t) (hf : s.frames = f :: rest) : ∃ g grest, t.stack = g :: grest ∧
    t.step .call = some (t.called g grest) ∧
    Linked { s with frames := .new .function :: f :: rest } (t.called g grest) := by
  obtain ⟨g, grest, hg, htop, hrest, hcur, hlist, hid⟩ := hl.top hf
  refine ⟨g, grest, hg, by simp [Tool.step, Tool.enterBegin, hg, Tool.called], ?_, ?_, hl.nextFutureId,
    hl.handles_length, hl.handles⟩
  · refine ⟨⟨htop.current, rfl, rfl, rfl, rfl, htop.futureId, htop.currentList_lt, ?_⟩, htop, hrest⟩
    intro l hsl
    cases hsl
  · rintro g' grest' ⟨rfl, rfl⟩
    exact ⟨hcur, hlist, hid⟩

/-- `cilk_leave_begin` of a function: node and list go back to the caller, whose future is the same. -/
theorem linked_ret {g : Serial.Frame} (hl : Linked s t) (hf : s.frames = f :: g :: rest)
    (hk : f.kind = .function) : ∃ a b brest, t.stack = a :: b :: brest ∧
      t.step .ret = some (t.returned a b brest) ∧
      Linked { s with frames := g :: rest } (t.returned a b brest) := by
  obtain ⟨a, arest, ha, htop, hrest, hcur, hlist, hid⟩ := hl.top hf
  obtain ⟨b, brest, rfl, hb, hbrest⟩ := hrest.exists_cons
  have hhelper : a.helper = false := by
    rw [htop.helper, hk]
    rfl
  rw [hk] at hb
  have hcont : b.cont = none := by simpa using hb.cont
  refine ⟨a, b, brest, ha, ?_, ?_, ?_, hl.nextFutureId, hl.handles_length, hl.handles⟩
  · simp [Tool.step, Tool.leaveEnd, ha, hhelper, hcont, Tool.newCurrent, hcur, Tool.returned]
  · exact ⟨⟨by simpa using htop.current, hb.cont, hb.sync, hb.syncList, hb.helper, hb.futureId,
      htop.currentList_lt, hb.syncList_lt⟩, hbrest⟩
  · rintro g' grest' ⟨rfl, rfl⟩
    exact ⟨hcur, rfl, rfl⟩

/-- The frames after `do_detach_begin`. -/
theorem framesLinked_detached {g : FrameData} {grest : List FrameData} {c : OmNode}
    (htop : FrameLinked t.lists.length false f (futureOf (f :: rest)) g)
    (hrest : FramesLinked t.lists.length (decide (f.kind ≠ .function)) rest grest)
    {kind : Serial.Kind} (hkind : kind ≠ .function)
    (hid : futureOf (.new kind :: { f with unsynced := true } :: rest) = futureOf (f :: rest)) :
    FramesLinked (t.detached g grest c).lists.length false (.new kind :: { f with unsynced := true } :: rest)
      (t.detached g grest c).stack := by
  obtain ⟨-, -, -, -, hlen⟩ := t.openGroup_fst g c
  obtain ⟨hlist, hgid, hhelper, hsync⟩ := t.openGroup_snd g c
  obtain ⟨hsl, hslt⟩ := Tool.openGroup_syncList htop c
  refine ⟨⟨rfl, rfl, rfl, rfl, ?_, ?_, ?_, ?_⟩, ⟨?_, ?_, hsync, hsl, ?_, ?_, ?_, hslt⟩, hrest.mono hlen⟩
  · exact (decide_eq_true hkind).symm
  · rw [hid]
    exact hgid.trans htop.futureId
  · exact Nat.lt_of_lt_of_le (hlist ▸ htop.currentList_lt) hlen
  · intro l hl
    cases hl
  · show false = !decide (kind ≠ .function)
    rw [decide_eq_true hkind]
    rfl
  · exact (decide_eq_true hkind).symm
  · exact hhelper.trans htop.helper
  · exact hgid.trans htop.futureId
  · exact Nat.lt_of_lt_of_le (hlist ▸ htop.currentList_lt) hlen

/-- `do_detach_begin`, from a function that has a current node. -/
theorem detachBegin_eq {g : FrameData} {grest : List FrameData} {c : OmNode} (hg : t.stack = g :: grest)
    (hhelper : g.helper = false) (hcur : g.current = some c) :
    t.detachBegin = some (t.detached g grest c) := by
  simp [Tool.detachBegin, hg, hhelper, hcur, Tool.newCurrent, Tool.detached]

/-- A spawn starts the child with a node of its own; the parent has no current node until its continuation runs. -/
theorem linked_spawn (hl : Linked s t) (hf : s.frames = f :: rest) (hk : f.kind = .function) :
    ∃ g grest, t.stack = g :: grest ∧ g.current = some t.current.node ∧
      t.step .spawn = some (t.detached g grest t.current.node) ∧
      Linked { s.start [⟨s.cur, .sp⟩] with
        frames := .new (.spawned s.cur) :: { f with unsynced := true } :: rest }
        (t.detached g grest t.current.node) := by
  obtain ⟨g, grest, hg, htop, hrest, hcur, hlist, hid⟩ := hl.top hf
  have hhelper : g.helper = false := by
    rw [htop.helper, hk]
    rfl
  obtain ⟨-, -, hnext, hhandles, hlen⟩ := t.openGroup_fst g t.current.node
  refine ⟨g, grest, hg, hcur, detachBegin_eq hg hhelper hcur, ?_, ?_, ?_, ?_, ?_⟩
  · exact framesLinked_detached htop hrest (by simp) (futureOf_of_kind rfl)
  · rintro g' grest' ⟨rfl, rfl⟩
    exact ⟨rfl, rfl, rfl⟩
  · exact hnext.trans hl.nextFutureId
  · show (t.openGroup g t.current.node).1.handles.length = _
    rw [hhandles]
    exact hl.handles_length
  · intro fut fin hfin
    obtain ⟨l, hhl, hlt⟩ := hl.handles fut fin hfin
    refine ⟨l, ?_, Nat.lt_of_lt_of_le hlt hlen⟩
    show (t.openGroup g t.current.node).1.handles[fut]? = _
    rw [hhandles]
    exact hhl

/-- `CilkFutureCreate` does the same and makes a list and a handle. Its push may move the frames, and then the
    parent's list is written to the old place (`kept`). -/
theorem linked_create (hl : Linked s t) (hf : s.frames = f :: rest) (hk : f.kind = .function) :
    ∃ g grest, t.stack = g :: grest ∧ g.current = some t.current.node ∧ ∃ kept,
      t.step .create = some (t.created g grest t.current.node kept) ∧
      Linked { s.start [⟨s.cur, .sp⟩] with
        frames := .new (.future s.futures.length s.cur) ::
          { f with unsynced := f.unsynced || rules.createUnsyncs } :: rest
        futures := s.futures ++ [none] } (t.created g grest t.current.node kept) := by
  obtain ⟨g, grest, hg, htop, hrest, hcur, hlist, hid⟩ := hl.top hf
  have hhelper : g.helper = false := by
    rw [htop.helper, hk]
    rfl
  obtain ⟨hstack, hcap, hnext, hhandles, hlen⟩ := t.openGroup_fst g t.current.node
  obtain ⟨hglist, hgid, hghelper, hgsync⟩ := t.openGroup_snd g t.current.node
  have hfr := framesLinked_detached (c := t.current.node) htop hrest
    (show Serial.Kind.spawned s.cur ≠ .function by simp) (futureOf_of_kind rfl)
  have hlt : g.currentList < (t.detached g grest t.current.node).lists.length :=
    Nat.lt_of_lt_of_le htop.currentList_lt hlen
  obtain ⟨kept, hkept⟩ : ∃ kept, kept = decide ((t.detached g grest t.current.node).capacity = t.capacity) :=
    ⟨_, rfl⟩
  refine ⟨g, grest, hg, hcur, kept, ?_, ?_, ?_, ?_, ?_, ?_⟩
  · have hdet := detachBegin_eq hg hhelper hcur
    have hget := Tool.getD_of_lt hlt
    rw [← hglist] at hget
    have hstack : (t.detached g grest t.current.node).stack =
        ⟨some (t.openGroup g t.current.node).1.orders.fresh, none, none,
          (t.openGroup g t.current.node).2.currentList, none, none, true,
          (t.openGroup g t.current.node).2.futureId⟩ ::
        { (t.openGroup g t.current.node).2 with
          current := none
          cont := some ((t.openGroup g t.current.node).1.orders.fresh + 1) } :: grest := rfl
    unfold Tool.step Tool.futureCreate
    simp only [hg, hcur, hdet, hstack, Option.bind_eq_bind, Option.bind_some, hget, Tool.newList]
    rw [← hkept]
    rfl
  · obtain ⟨hchild, hparent, hbelow⟩ := hfr
    have hsucc : (t.detached g grest t.current.node).lists.length <
        (t.created g grest t.current.node kept).lists.length := by
      show _ < ((t.detached g grest t.current.node).lists ++ [_]).length
      simp
    have hunsynced : (f.unsynced || rules.createUnsyncs) = true := by simp [rules]
    rw [hunsynced]
    refine ⟨⟨rfl, rfl, rfl, rfl, ?_, ?_, hsucc, ?_⟩, ?_, hbelow.mono (Nat.le_of_lt hsucc)⟩
    · exact (decide_eq_true (by simp)).symm
    · show (t.detached g grest t.current.node).nextFutureId = (s.futures.length + 1) % 2 ^ 32
      exact hnext.trans hl.nextFutureId
    · intro l hl
      cases hl
    · have hparent := hparent.mono (Nat.le_of_lt hsucc)
      cases kept with
      | false => exact hparent
      | true => exact ⟨hparent.current, hparent.cont, hparent.sync, hparent.syncList, hparent.helper,
          hparent.futureId, hsucc, hparent.syncList_lt⟩
  · rintro g' grest' ⟨rfl, rfl⟩
    exact ⟨rfl, rfl, rfl⟩
  · show (_ + 1) % 2 ^ 32 = _
    rw [show (t.detached g grest t.current.node).nextFutureId = t.nextFutureId from hnext, hl.nextFutureId]
    simp only [List.length_append, List.length_singleton]
    omega
  · show ((t.openGroup g t.current.node).1.handles ++ [none]).length = _
    rw [hhandles, List.length_append, hl.handles_length]
    simp
  · intro fut fin hfin
    have hold : s.futures[fut]? = some (some fin) := by
      rcases Nat.lt_trichotomy fut s.futures.length with hlt | rfl | hgt
      · exact (List.getElem?_append_left hlt) ▸ hfin
      · simp at hfin
      · rw [List.getElem?_eq_none (by simp; omega)] at hfin
        cases hfin
    obtain ⟨l, hhl, hlt'⟩ := hl.handles fut fin hold
    refine ⟨l, ?_, ?_⟩
    · show ((t.openGroup g t.current.node).1.handles ++ [none])[fut]? = _
      rw [hhandles, List.getElem?_append_left (List.getElem?_eq_some_iff.mp hhl).1]
      exact hhl
    · show l < ((t.openGroup g t.current.node).1.lists ++ [_]).length
      rw [List.length_append]
      exact Nat.lt_add_right _ (Nat.lt_of_lt_of_le hlt' hlen)

/-- A frame goes on after its forked child has come back. -/
theorem FrameLinked.continue {n m : Nat} {g : FrameData}
    (h : FrameLinked n true f (futureOf (f :: rest)) g) (f' : Serial.Frame) (hk : f'.kind = f.kind)
    (hu : f'.unsynced = f.unsynced) (hnm : n ≤ m) (c : OmNode) :
    FrameLinked m false f' (futureOf (f' :: rest)) { g with current := some c, cont := none } :=
  ⟨rfl, rfl, by rw [hu]; exact h.sync, by rw [hu]; exact h.syncList, by rw [hk]; exact h.helper,
    by rw [futureOf_of_kind hk]; exact h.futureId, Nat.lt_of_lt_of_le h.currentList_lt hnm, fun l hl => Nat.lt_of_lt_of_le (h.syncList_lt l hl) hnm⟩

/-- Coming back makes no list. -/
theorem length_joinedLists (a b : FrameData) : (t.joinedLists a b).length = t.lists.length := by
  unfold Tool.joinedLists
  split
  · exact Tool.length_merged _ _
  · rfl

/-- Nor does a sync. -/
theorem length_syncedLists (b : FrameData) : (t.syncedLists b).length = t.lists.length := by
  unfold Tool.syncedLists
  split
  · exact Tool.length_merged _ _
  · rfl

/-- A child comes back: its list is merged into the sync list of the parent if it has another one by now, and the
    parent goes on at its continuation. The sync list is there, since a parent of a spawned child is unsynced. -/
theorem linked_spawnRet {g : Serial.Frame} {fork : Strand} (hl : Linked s t) (hst : StackOk s)
    (hf : s.frames = f :: g :: rest) (hk : f.kind = .spawned fork) : ∃ a b brest n,
      t.stack = a :: b :: brest ∧ b.cont = some n ∧
      t.step .spawnRet = some (t.continued b brest n (t.joinedLists a b)) ∧
      Linked { s.start [⟨fork, .sp⟩] with
        frames := { g with children := ⟨fork, s.cur⟩ :: g.children } :: rest }
        (t.continued b brest n (t.joinedLists a b)) := by
  obtain ⟨a, arest, ha, htop, hrest, hcur, hlist, hid⟩ := hl.top hf
  obtain ⟨b, brest, rfl, hb, hbrest⟩ := hrest.exists_cons
  have hne : f.kind ≠ .function := by simp [hk]
  rw [decide_eq_true hne] at hb
  have hhelper : a.helper = true := htop.helper.trans (decide_eq_true hne)
  obtain ⟨n, hn⟩ := Option.isSome_iff_exists.mp hb.cont
  have hbcur : b.current = none := by simpa using hb.current
  have hparents := hst.parents
  rw [hf] at hparents
  have hgu : g.unsynced = true := (List.isChain_cons_cons.mp hparents).1 fork hk
  obtain ⟨sync, hsync⟩ := Option.isSome_iff_exists.mp (hb.sync.trans hgu)
  obtain ⟨sl, hsl⟩ := Option.isSome_iff_exists.mp (hb.syncList.trans hgu)
  have hlen := length_joinedLists (t := t) a b
  refine ⟨a, b, brest, n, ha, hn, ?_, ⟨hb.continue { g with children := ⟨fork, s.cur⟩ :: g.children } rfl rfl
    (Nat.le_of_eq hlen.symm) n,
    hbrest.mono (Nat.le_of_eq hlen.symm)⟩, ?_, hl.nextFutureId, hl.handles_length, ?_⟩
  · unfold Tool.step Tool.leaveEnd
    simp only [ha, hhelper, hbcur, hn, hsync, if_true]
    unfold Tool.continued Tool.joinedLists
    by_cases hp : b.currentList = a.currentList
    · simp [hp, hsync, Tool.newCurrent]
    · have hmerge := Tool.mergeList_eq (hb.syncList_lt sl hsl) htop.currentList_lt
      simp [hp, hsl, hsync, hmerge, Tool.newCurrent]
  · rintro g' grest' ⟨rfl, rfl⟩
    exact ⟨rfl, rfl, rfl⟩
  · intro fut fin hfin
    obtain ⟨l, hhl, hlt⟩ := hl.handles fut fin hfin
    exact ⟨l, hhl, Nat.lt_of_lt_of_eq hlt hlen.symm⟩

/-- A sync of an unsynced frame goes on at its sync node, with the sync list if that has anything, and with its own
    list otherwise. -/
theorem linked_sync (hl : Linked s t) (hf : s.frames = f :: rest) (hk : f.kind = .function)
    (hu : f.unsynced = true) : ∃ g grest n, t.stack = g :: grest ∧ g.sync = some n ∧
      t.step .sync = some (t.synced g grest n) ∧
      Linked { s.start (Serial.syncEdges s.cur f) with frames := .new f.kind :: rest }
        (t.synced g grest n) := by
  obtain ⟨g, grest, hg, htop, hrest, hcur, hlist, hid⟩ := hl.top hf
  have hhelper : g.helper = false := by
    rw [htop.helper, hk]
    rfl
  have hcont : g.cont = none := by simpa using htop.cont
  obtain ⟨n, hn⟩ := Option.isSome_iff_exists.mp (htop.sync.trans hu)
  obtain ⟨sl, hsl⟩ := Option.isSome_iff_exists.mp (htop.syncList.trans hu)
  have hlt := htop.syncList_lt sl hsl
  have hlen := length_syncedLists (t := t) g
  have hget : (t.syncedLists g)[sl]? = some ((t.syncedLists g).getD sl .new) :=
    Tool.getD_of_lt (t := { t with lists := t.syncedLists g }) (Nat.lt_of_lt_of_eq hlt hlen.symm)
  refine ⟨g, grest, n, hg, hn, ?_, ?_, ?_, hl.nextFutureId, hl.handles_length, ?_⟩
  · have hbegin : t.syncBegin = some { t with
        lists := t.syncedLists g
        stack := { g with current := some n, sync := none } :: grest } := by
      unfold Tool.syncBegin
      simp only [hg, hhelper, hcur, hcont, hn]
      by_cases hp : some g.currentList = g.oriList
      · simp [hp, Tool.syncedLists]
      · have hmerge := Tool.mergeList_eq hlt htop.currentList_lt
        simp [hp, hsl, hmerge, Tool.syncedLists]
    unfold Tool.step
    simp only [hbegin, Option.bind_eq_bind, Option.bind_some]
    unfold Tool.syncEnd
    simp only [hsl, Option.bind_eq_bind, Option.bind_some, hget]
    unfold Tool.synced Tool.syncedList
    rw [hsl]
    rfl
  · refine ⟨⟨rfl, ?_, rfl, rfl, htop.helper, ?_, ?_, ?_⟩, hrest.mono (Nat.le_of_eq hlen.symm)⟩
    · rw [hcont]
      rfl
    · rw [show futureOf (.new f.kind :: rest) = futureOf (f :: rest) from futureOf_of_kind rfl]
      exact htop.futureId
    · show Tool.syncedList (t.syncedLists g) g < (t.syncedLists g).length
      rw [hlen]
      unfold Tool.syncedList
      split
      · exact htop.currentList_lt
      · rw [hsl]
        exact hlt
    · intro l hl
      cases hl
  · rintro g' grest' ⟨rfl, rfl⟩
    exact ⟨rfl, rfl, rfl⟩
  · intro fut fin hfin
    obtain ⟨l, hhl, hlt⟩ := hl.handles fut fin hfin
    exact ⟨l, hhl, Nat.lt_of_lt_of_eq hlt hlen.symm⟩

/-- A sync of a synced frame makes `current` again. -/
theorem linked_synced (hl : Linked s t) (hf : s.frames = f :: rest) (hk : f.kind = .function)
    (hu : f.unsynced = false) : t.step .sync = some t := by
  obtain ⟨g, grest, hg, htop, hrest, hcur, hlist, hid⟩ := hl.top hf
  have hhelper : g.helper = false := by
    rw [htop.helper, hk]
    rfl
  have hcont : g.cont = none := by simpa using htop.cont
  have hsync : g.sync = none := by
    have := htop.sync
    rw [hu] at this
    simpa using this
  have hsl : g.syncList = none := by
    have := htop.syncList
    rw [hu] at this
    simpa using this
  have hbegin : t.syncBegin = some t := by
    unfold Tool.syncBegin
    simp [hg, hhelper, hcur, hcont, hsync]
  unfold Tool.step
  simp only [hbegin, Option.bind_eq_bind, Option.bind_some]
  unfold Tool.syncEnd
  simp only [hg, hsl, Option.bind_eq_bind, Option.bind_some]
  unfold Tool.newCurrent
  simp only [hcur, Option.bind_eq_bind, Option.bind_some]
  rw [hlist, hid, ← hg]

/-- `CilkFutureFinish`: the future leaves a list with its last strand in it, and the creator goes on at its
    continuation with the list that it had. -/
theorem linked_finish {g : Serial.Frame} {fork : Strand} {fut : FutId} (hl : Linked s t) (hst : StackOk s)
    (hf : s.frames = f :: g :: rest) (hk : f.kind = .future fut fork) : ∃ a b brest n,
      t.stack = a :: b :: brest ∧ b.cont = some n ∧
      t.step (.finish fut) = some (t.finished a b brest n fut) ∧
      Linked { s.start [⟨fork, .sp⟩] with
        frames := { g with created := ⟨fork, s.cur⟩ :: g.created } :: rest
        futures := s.futures.set fut (some ⟨fork, s.cur, s.dag.length⟩) }
        (t.finished a b brest n fut) := by
  obtain ⟨a, arest, ha, htop, hrest, hcur, hlist, hid⟩ := hl.top hf
  obtain ⟨b, brest, rfl, hb, hbrest⟩ := hrest.exists_cons
  have hne : f.kind ≠ .function := by simp [hk]
  rw [decide_eq_true hne] at hb
  obtain ⟨n, hn⟩ := Option.isSome_iff_exists.mp hb.cont
  have hget := Tool.getD_of_lt htop.currentList_lt
  have hsucc : t.lists.length < (t.lists ++ [t.finishedList a]).length := by simp
  have hfutlt : fut < s.futures.length := by
    have hrunning : s.futures[fut]? = some none := by
      apply hst.running
      rw [hf, Serial.futIds_cons, hk]
      simp
    exact (List.getElem?_eq_some_iff.mp hrunning).1
  refine ⟨a, b, brest, n, ha, hn, ?_, ⟨hb.continue { g with created := ⟨fork, s.cur⟩ :: g.created } rfl rfl
    (Nat.le_of_lt hsucc) n,
    hbrest.mono (Nat.le_of_lt hsucc)⟩, ?_, ?_, ?_, ?_⟩
  · unfold Tool.step Tool.futureFinish
    simp only [ha, hcur, hget, hn, Option.bind_eq_bind, Option.bind_some, Tool.newList]
    rfl
  · rintro g' grest' ⟨rfl, rfl⟩
    exact ⟨rfl, rfl, rfl⟩
  · show t.nextFutureId = ((s.futures.set fut _).length + 1) % 2 ^ 32
    rw [List.length_set]
    exact hl.nextFutureId
  · show (t.handles.set fut _).length = (s.futures.set fut _).length
    rw [List.length_set, List.length_set]
    exact hl.handles_length
  · intro fut' fin hfin
    by_cases heq : fut' = fut
    · subst heq
      refine ⟨t.lists.length, ?_, hsucc⟩
      show (t.handles.set fut' _)[fut']? = _
      rw [List.getElem?_set_self (by rw [hl.handles_length]; exact hfutlt)]
    · rw [List.getElem?_set_ne (fun h => heq h.symm)] at hfin
      obtain ⟨l, hhl, hlt⟩ := hl.handles fut' fin hfin
      refine ⟨l, ?_, Nat.lt_trans hlt hsucc⟩
      show (t.handles.set fut _)[fut']? = _
      rw [List.getElem?_set_ne (fun h => heq h.symm)]
      exact hhl

/-- `CilkFutureGet` of a finished future, whose list is there: the frame gets a list of what both know. -/
theorem linked_get {fut : FutId} {fin : Serial.Finished} (hl : Linked s t) (hne : s.frames ≠ [])
    (hfin : s.futures[fut]? = some (some fin)) : ∃ g grest l,
      t.stack = g :: grest ∧ g.current = some t.current.node ∧ t.handles[fut]? = some (some l) ∧
      t.step (.get fut) = some (t.got g grest l) ∧
      Linked (s.start [⟨s.cur, .sp⟩, ⟨fin.last, .get⟩]) (t.got g grest l) := by
  cases hf : s.frames with
  | nil => exact absurd hf hne
  | cons f rest =>
      obtain ⟨g, grest, hg, htop, hrest, hcur, hlist, hid⟩ := hl.top hf
      obtain ⟨l, hhl, hlt⟩ := hl.handles fut fin hfin
      have hget := Tool.getD_of_lt htop.currentList_lt
      have hget' := Tool.getD_of_lt hlt
      have hsucc : t.lists.length < (t.got g grest l).lists.length := by
        show _ < (t.lists ++ [_]).length
        simp
      refine ⟨g, grest, l, hg, hcur, hhl, ?_, ?_, ?_, hl.nextFutureId, hl.handles_length, ?_⟩
      · unfold Tool.step
        simp only [hhl]
        unfold Tool.futureGet
        simp only [hg, hget, hget', Option.bind_eq_bind, Option.bind_some, Tool.newList]
        rfl
      · show FramesLinked _ false s.frames _
        rw [hf]
        refine ⟨⟨htop.current, htop.cont, htop.sync, htop.syncList, htop.helper, htop.futureId, hsucc, ?_⟩,
          hrest.mono (Nat.le_of_lt hsucc)⟩
        intro l' hl'
        exact Nat.lt_trans (htop.syncList_lt l' hl') hsucc
      · rintro g' grest' ⟨rfl, rfl⟩
        exact ⟨hcur, rfl, hid⟩
      · intro fut' fin' hfin'
        obtain ⟨l', hhl', hlt'⟩ := hl.handles fut' fin' hfin'
        exact ⟨l', hhl', Nat.lt_trans hlt' hsucc⟩

end Steps

end FOrder.Rdtool
