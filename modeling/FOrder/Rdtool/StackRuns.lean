import FOrder.Rdtool.StackExact
import Mathlib.Data.Nat.Find

/-!
# `Rdtool.StackRuns` — shadow deques under any mix of calls and steals

Any number of stacks, used and stolen from in any order. Every stack stays valid and every call does to the deques
what it is for. Copying a whole stack with `transfer` is exact but for the empty one.

`Does` and `Effect` say what a call and an event are for, on deques; a steal moves the tail of the victim to its
next helper and gives the thief what is below that. `Passes` is when the assertions of an event hold, also on
deques. `Allowed` is what no assertion looks at: room for a push, a frame for a pop, a helper above the tail for a
steal.

So an event that is allowed has its effect exactly when it passes, and fails an assertion otherwise
(`Stacks.step_spec`, `Stacks.step_error`); the run lemma is `Stacks.Run.valid`.
-/

namespace FOrder.Rdtool

variable {D : Type}

/-! ## Calls and steals -/

/-- A call on one stack; `write` is what its owner stores through the pointer that `at(i)` returns. -/
inductive StackOp (D : Type) where
  | push
  | pushHelper
  | add (item : Frame D)
  | pop
  | reset
  | write (i : Nat) (f : Frame D)

/-- A call by the owner of stack `s`, or a steal. -/
inductive StackEvent (D : Type) where
  | on (s : Nat) (o : StackOp D)
  | steal (victim thief : Nat)

abbrev Stacks (D : Type) := Nat → Stack D

/-- One stack is another one. -/
def Stacks.set (σs : Stacks D) (s : Nat) (σ : Stack D) : Stacks D := fun t => if t = s then σ else σs t

section Step

variable [Inhabited D]

/-- A call on one stack. -/
def Stack.op (σ : Stack D) : StackOp D → Except Fault (Stack D)
  | .push => .ok σ.push
  | .pushHelper => σ.pushHelper
  | .add item => σ.add item
  | .pop => σ.pop
  | .reset => .ok σ.reset
  | .write i f => σ.setAt i f

/-- An event. -/
def Stacks.step (σs : Stacks D) : StackEvent D → Except Fault (Stacks D)
  | .on s o => do
      let σ ← (σs s).op o
      .ok (σs.set s σ)
  | .steal v t => do
      let (v', t') ← (σs v).stealTop (σs t)
      .ok ((σs.set v v').set t t')

end Step

/-! ## What they are for -/

/-- What a call does to a deque. A push leaves the content of the new frame open. -/
inductive Does : Deque D → StackOp D → Deque D → Prop where
  | push {l t} (f : Frame D) : Does ⟨l, t⟩ .push ⟨l ++ [f], t⟩
  | pushHelper {l t f} (hf : f.flags = frameHelperMask) : Does ⟨l, t⟩ .pushHelper ⟨l ++ [f], t⟩
  | add {l t item} : Does ⟨l, t⟩ (.add item) ⟨l ++ [item], t⟩
  | pop {l t} (hl : l ≠ []) : Does ⟨l, t⟩ .pop ⟨l.dropLast, min t (l.length - 2)⟩
  | reset {d} : Does d .reset ⟨[], 0⟩
  | write {l t i f} (hi : i < l.length) : Does ⟨l, t⟩ (.write i f) ⟨l.set i f, t⟩

/-- What an event does to all deques. -/
def Effect (ds ds' : Nat → Deque D) : StackEvent D → Prop
  | .on s o => Does (ds s) o (ds' s) ∧ ∀ u, u ≠ s → ds' u = ds u
  | .steal v t => ∃ k f, Stack.NextHelper (ds v) k f ∧ (ds t).frames = [] ∧ ds' v = ⟨(ds v).frames, k⟩ ∧
      ds' t = (ds v).stolen k ∧ ∀ u, u ≠ v → u ≠ t → ds' u = ds u

/-- The assertions of an event hold: a helper goes onto a plain frame, a write has a frame, and a thief has none and gets
    a plain frame as its last. -/
def Passes (ds : Nat → Deque D) : StackEvent D → Prop
  | .on s .pushHelper => Stack.TopIsPlain (ds s).frames
  | .on s (.write i _) => i < (ds s).frames.length
  | .on _ _ => True
  | .steal v t => (ds t).frames = [] ∧ ∃ k f, Stack.NextHelper (ds v) k f ∧ Stack.TopIsPlain ((ds v).stolen k).frames

/-- A push needs room below `2 ^ 31` frames, a pop a frame, a steal a helper above the tail of the victim. -/
def Stacks.Allowed (σs : Stacks D) : StackEvent D → Prop
  | .on s .push | .on s .pushHelper | .on s (.add _) => (σs s).frames.length < 2 ^ 31
  | .on s .pop => (σs s).frames ≠ []
  | .on _ .reset | .on _ (.write _ _) => True
  | .steal v _ => ∃ k f, (σs v).tail < k ∧ (σs v).frames[k]? = some f ∧ f.helper = true

section Runs

variable [Inhabited D]

/-- The stacks after a sequence of events, from new ones. -/
inductive Stacks.Run : List (StackEvent D) → Stacks D → Prop where
  | nil : Run [] fun _ => .new
  | step {es σs σs' e} (h : Run es σs) (ha : σs.Allowed e) (hstep : σs.step e = .ok σs') : Run (es ++ [e]) σs'

/-- What the stacks are for. -/
def Stacks.deques (σs : Stacks D) (s : Nat) : Deque D := (σs s).deque

omit [Inhabited D] in
/-- Where there is a helper above the tail, there is a first one. -/
theorem Deque.exists_nextHelper {d : Deque D} (h : ∃ k f, d.tail < k ∧ d.frames[k]? = some f ∧ f.helper = true) :
    ∃ k f, Stack.NextHelper d k f := by
  classical
  let p := fun k => d.tail < k ∧ ∃ f, d.frames[k]? = some f ∧ f.helper = true
  have hex : ∃ k, p k := by
    obtain ⟨k, f, hk, hf, hh⟩ := h
    exact ⟨k, hk, f, hf, hh⟩
  obtain ⟨hk, f, hf, hh⟩ := Nat.find_spec hex
  refine ⟨Nat.find hex, f, hk, hf, hh, ?_⟩
  intro j g hj hlt hg
  by_contra hhelper
  exact Nat.find_min hex hlt ⟨hj, g, hg, by simpa using hhelper⟩

/-- **One call** whose assertions hold does to the deque what it is for. -/
theorem Stack.op_spec {σ : Stack D} (h : σ.Valid) (o : StackOp D) {σs : Stacks D} {s : Nat} (hs : σs s = σ)
    (ha : σs.Allowed (.on s o)) (hp : Passes σs.deques (.on s o)) :
    ∃ σ', σ.op o = .ok σ' ∧ σ'.Valid ∧ Does σ.deque o σ'.deque := by
  subst hs
  have hlen := h.frames_length
  cases o with
  | push =>
      obtain ⟨f, hframes, hfits, htail, -⟩ := push_spec h.toFits (hlen ▸ ha)
      refine ⟨_, rfl, push_valid h hfits hframes (by simp) htail, ?_⟩
      unfold deque
      rw [hframes, htail]
      exact .push f
  | pushHelper =>
      obtain ⟨σ', f, hrun, hvalid, hframes, hflags, htail⟩ := pushHelper_spec h (hlen ▸ ha) hp
      refine ⟨σ', hrun, hvalid, ?_⟩
      unfold deque
      rw [hframes, htail]
      exact .pushHelper hflags
  | add item =>
      obtain ⟨σ', hrun, hvalid, hframes, htail⟩ := add_spec h (hlen ▸ ha) item
      refine ⟨σ', hrun, hvalid, ?_⟩
      unfold deque
      rw [hframes, htail]
      exact .add
  | pop =>
      have hne : (σs s).size ≠ 0 := by
        rw [← hlen]
        exact fun hzero => ha (List.length_eq_zero_iff.mp hzero)
      obtain ⟨σ', hrun, hvalid, hframes, htail⟩ := pop_spec h hne
      refine ⟨σ', hrun, hvalid, ?_⟩
      unfold deque
      rw [hframes, htail]
      exact .pop ha
  | reset =>
      obtain ⟨hvalid, hframes⟩ := reset_spec h.toFits
      refine ⟨_, rfl, hvalid, ?_⟩
      unfold deque
      rw [hframes]
      exact .reset
  | write i f =>
      obtain ⟨σ', hrun, hvalid, hframes, htail⟩ := setAt_spec h hp f
      refine ⟨σ', hrun, hvalid, ?_⟩
      unfold deque
      rw [hframes, htail]
      exact .write hp

/-- **One event** whose assertions hold keeps every stack valid. -/
theorem Stacks.step_spec {σs : Stacks D} (h : ∀ s, (σs s).Valid) {e : StackEvent D} (ha : σs.Allowed e)
    (hp : Passes σs.deques e) : ∃ σs', σs.step e = .ok σs' ∧ (∀ s, (σs' s).Valid) ∧ Effect σs.deques σs'.deques e := by
  cases e with
  | on s o =>
      obtain ⟨σ', hrun, hvalid, hdoes⟩ := Stack.op_spec (h s) o rfl ha hp
      refine ⟨σs.set s σ', by rw [step, hrun]; rfl, ?_, ?_, ?_⟩
      · intro u
        unfold set
        split
        · exact hvalid
        · exact h u
      · simpa [deques, set] using hdoes
      · intro u hu
        simp [deques, set, hu]
  | steal v t =>
      obtain ⟨hempty, k, f, hk, htop⟩ := hp
      have hempty : (σs t).frames = [] := hempty
      obtain ⟨v', t', hrun, hv', ht', hvd, htd⟩ := (Stack.stealTop_spec (h v) (h t) hk).1 ⟨hempty, htop⟩
      -- an empty thief is not its own victim
      have hne : v ≠ t := by
        rintro rfl
        have hframe : (σs v).frames[k]? = some f := hk.frame
        rw [hempty] at hframe
        simp at hframe
      refine ⟨(σs.set v v').set t t', by rw [step, hrun]; rfl, ?_, k, f, hk, hempty, ?_, ?_, ?_⟩
      · intro u
        unfold set
        split
        · exact ht'
        · split
          · exact hv'
          · exact h u
      · have hset : (σs.set v v').set t t' v = v' := by simp [set, hne]
        rw [deques, hset]
        exact hvd
      · have hset : (σs.set v v').set t t' t = t' := by simp [set]
        rw [deques, hset]
        exact htd
      · intro u huv hut
        simp [deques, set, huv, hut]

/-- **One event** whose assertions do not all hold fails one of them. -/
theorem Stacks.step_error {σs : Stacks D} (h : ∀ s, (σs s).Valid) {e : StackEvent D} (ha : σs.Allowed e)
    (hp : ¬Passes σs.deques e) : σs.step e = .error .assertion := by
  cases e with
  | on s o =>
      have herr : (σs s).op o = .error .assertion := by
        cases o with
        | pushHelper => exact Stack.pushHelper_error (h s) hp
        | write i f => exact Stack.setAt_error (h s) hp f
        | _ => exact absurd trivial hp
      rw [step, herr]
      rfl
  | steal v t =>
      have herr : (σs v).stealTop (σs t) = .error .assertion := by
        obtain ⟨k, f, hk⟩ := Deque.exists_nextHelper (d := (σs v).deque) ha
        exact (Stack.stealTop_spec (h v) (h t) hk).2 fun hok => hp ⟨hok.1, k, f, hk, hok.2⟩
      rw [step, herr]
      rfl

/-- Every stack is valid after every run. -/
theorem Stacks.Run.valid {es : List (StackEvent D)} {σs : Stacks D} (h : Run es σs) : ∀ s, (σs s).Valid := by
  induction h with
  | nil => exact fun _ => Stack.valid_new
  | @step _ σs _ e _ ha hstep ih =>
      by_cases hp : Passes σs.deques e
      · obtain ⟨σs', hrun, hvalid, -⟩ := Stacks.step_spec ih ha hp
        rw [hstep] at hrun
        obtain rfl := Except.ok.inj hrun
        exact hvalid
      · rw [Stacks.step_error ih ha hp] at hstep
        cases hstep

/-- **The shadow deque is a list with a steal boundary.** After any calls and steals the head of every stack is
    below its capacity (or all ones) and the tail at or below the head; and the next event does to the deques exactly
    what it is for when its assertions hold, and fails one of them when they do not. -/
theorem stacks_refine {es : List (StackEvent D)} {σs : Stacks D} (h : Stacks.Run es σs) :
    (∀ s, (σs s).Valid) ∧ ∀ e, σs.Allowed e →
      (Passes σs.deques e → ∃ σs', σs.step e = .ok σs' ∧ Effect σs.deques σs'.deques e) ∧
      (¬Passes σs.deques e → σs.step e = .error .assertion) := by
  refine ⟨h.valid, fun e ha => ⟨fun hp => ?_, Stacks.step_error h.valid ha⟩⟩
  obtain ⟨σs', hrun, -, heffect⟩ := Stacks.step_spec h.valid ha hp
  exact ⟨σs', hrun, heffect⟩

/-- One more call. -/
theorem Stacks.Run.on {es : List (StackEvent D)} {σs : Stacks D} (h : Run es σs) {s : Nat} {o : StackOp D}
    (ha : σs.Allowed (.on s o)) {σ : Stack D} (hop : (σs s).op o = .ok σ) : Run (es ++ [.on s o]) (σs.set s σ) := by
  refine h.step ha ?_
  rw [Stacks.step, hop]
  rfl

/-- A stack of 128 entries with these frames. -/
def ofFrames (l : List (Frame Unit)) (tail : Nat) : Stack Unit :=
  ⟨l ++ List.replicate (128 - l.length) default, 128, l.length - 1, tail⟩

/-- A frame, a helper, another frame, and a second helper. -/
def twoHelpers : List (StackEvent Unit) := [.on 0 (.add ⟨0, ()⟩), .on 0 .pushHelper, .on 0 (.add ⟨4, ()⟩), .on 0 .pushHelper]

/-- The frames after these calls. -/
def twoHelpersFrames : List (Frame Unit) := [⟨0, ()⟩, ⟨1, ()⟩, ⟨4, ()⟩, ⟨1, ()⟩]

/-- The stacks after these calls, and after a steal by stack `1`. -/
def ready : Stacks Unit := fun s => if s = 0 then ofFrames twoHelpersFrames 0 else .new

/-- And after the steal: the tail is at the first helper, and the thief has the frame below it. -/
def stolenOnce : Stacks Unit := (ready.set 0 (ofFrames twoHelpersFrames 1)).set 1 (ofFrames [⟨0, ()⟩] 0)

/-- The calls pass. -/
theorem run_twoHelpers : Stacks.Run twoHelpers ready := by
  have hset : ∀ σ σ' : Stack Unit, Stacks.set (fun s => if s = 0 then σ else .new) 0 σ' = fun s => if s = 0 then σ' else .new := by
    intro σ σ'
    funext s
    unfold Stacks.set
    split
    · rfl
    · rename_i hs
      exact if_neg hs
  have hstep : ∀ {es : List (StackEvent Unit)} {σ : Stack Unit} {o : StackOp Unit} (σ' : Stack Unit),
      Stacks.Run es (fun s => if s = 0 then σ else .new) → Stacks.Allowed (fun s => if s = 0 then σ else .new) (.on 0 o) →
      σ.op o = .ok σ' → Stacks.Run (es ++ [.on 0 o]) (fun s => if s = 0 then σ' else .new) := by
    intro es σ o σ' h ha hop
    rw [← hset σ σ']
    exact h.on ha hop
  have hnew : Stacks.Run [] (fun s => if s = 0 then (.new : Stack Unit) else .new) := by
    simpa using Stacks.Run.nil (D := Unit)
  have h₁ := hstep (ofFrames [⟨0, ()⟩] 0) hnew (o := .add ⟨0, ()⟩) (show (Stack.new : Stack Unit).frames.length < 2 ^ 31 by decide +kernel)
    (by decide +kernel)
  have h₂ := hstep (ofFrames [⟨0, ()⟩, ⟨1, ()⟩] 0) h₁ (o := .pushHelper) (show (ofFrames _ _).frames.length < 2 ^ 31 by decide +kernel)
    (by decide +kernel)
  have h₃ := hstep (ofFrames [⟨0, ()⟩, ⟨1, ()⟩, ⟨4, ()⟩] 0) h₂ (o := .add ⟨4, ()⟩)
    (show (ofFrames _ _).frames.length < 2 ^ 31 by decide +kernel) (by decide +kernel)
  exact hstep (ofFrames twoHelpersFrames 0) h₃ (o := .pushHelper)
    (show (ofFrames _ _).frames.length < 2 ^ 31 by decide +kernel) (by decide +kernel)

/-- The next helper is the frame at `1`. -/
theorem nextHelper_first : Stack.NextHelper (ofFrames twoHelpersFrames 0).deque 1 ⟨1, ()⟩ := by
  refine ⟨Nat.one_pos, by decide +kernel, by decide, ?_⟩
  intro j g hj hlt
  exact absurd hlt (Nat.not_lt.mpr hj)

/-- After the steal it is the frame at `3`. -/
theorem nextHelper_second : Stack.NextHelper (ofFrames twoHelpersFrames 1).deque 3 ⟨1, ()⟩ := by
  refine ⟨show 1 < 3 by decide, by decide +kernel, by decide, ?_⟩
  intro j g hj hlt hg
  have hj : 1 < j := hj
  obtain rfl : j = 2 := by omega
  have hframe : (ofFrames twoHelpersFrames 1).deque.frames[2]? = some ⟨4, ()⟩ := by decide +kernel
  rw [hframe] at hg
  cases hg
  decide

theorem allowed_first : ready.Allowed (.steal 0 1) :=
  ⟨1, ⟨1, ()⟩, nextHelper_first.above, nextHelper_first.frame, nextHelper_first.helper⟩

/-- The steal passes, too. -/
theorem run_stolenOnce : Stacks.Run (twoHelpers ++ [.steal 0 1]) stolenOnce := by
  have htop : (ready 0).stealTop (ready 1) = .ok (ofFrames twoHelpersFrames 1, ofFrames [⟨0, ()⟩] 0) := by decide +kernel
  refine run_twoHelpers.step allowed_first ?_
  rw [Stacks.step, htop]
  rfl

/-- The first steal takes the frame below the first helper; the second one all below the second helper, the first frame
    marked full. -/
theorem stacks_refine_steals : Stacks.Run twoHelpers ready ∧
    (∃ σs', ready.step (.steal 0 1) = .ok σs' ∧ Effect ready.deques σs'.deques (.steal 0 1)) ∧
    Stacks.Run (twoHelpers ++ [.steal 0 1]) stolenOnce ∧
    ∃ σs', stolenOnce.step (.steal 0 2) = .ok σs' ∧ Effect stolenOnce.deques σs'.deques (.steal 0 2) := by
  have hpasses : Passes ready.deques (.steal 0 1) := by
    refine ⟨by decide +kernel, 1, ⟨1, ()⟩, nextHelper_first, [], ⟨0, ()⟩, ?_, by decide⟩
    show ((ofFrames twoHelpersFrames 0).deque.stolen 1).frames = _
    decide +kernel
  have hallowed' : stolenOnce.Allowed (.steal 0 2) :=
    ⟨3, ⟨1, ()⟩, nextHelper_second.above, nextHelper_second.frame, nextHelper_second.helper⟩
  have hpasses' : Passes stolenOnce.deques (.steal 0 2) := by
    refine ⟨by decide +kernel, 3, ⟨1, ()⟩, nextHelper_second, [⟨2, ()⟩, ⟨1, ()⟩], ⟨4, ()⟩, ?_, by decide⟩
    show ((ofFrames twoHelpersFrames 1).deque.stolen 3).frames = _
    decide +kernel
  exact ⟨run_twoHelpers, ((stacks_refine run_twoHelpers).2 _ allowed_first).1 hpasses, run_stolenOnce,
    ((stacks_refine run_stolenOnce).2 _ hallowed').1 hpasses'⟩

/-- A pop of a new stack passes every assertion, and leaves a head that is neither all ones nor below the
    capacity. -/
theorem pop_of_empty : ∃ σs : Stacks Unit, Stacks.step (fun _ => .new) (.on 0 .pop) = .ok σs ∧
    (σs 0).head ≠ noHead ∧ ¬(σs 0).head < (σs 0).capacity :=
  ⟨_, rfl, by decide, by decide⟩

end Runs

/-! ## `transfer` -/

section Transfer

variable [Inhabited D] {this orig : Stack D}

/-- From a head of `2 ^ 31 - 1` on, and all ones is one, the loop has no end: the index overflows first. -/
theorem copyAll_diverges (hhead : 2 ^ 31 - 1 ≤ this.head) (n i : Nat) (hi : i < 2 ^ 31) (orig out : Stack D) :
    Stack.copyAll this n i orig ≠ .ok out := by
  induction n generalizing i orig with
  | zero => simp [Stack.copyAll]
  | succ n ih =>
      unfold Stack.copyAll
      rw [if_pos (by omega)]
      cases this.read i with
      | error fault => simp [bind, Except.bind]
      | ok f =>
          rw [ok_bind]
          cases orig.push.setHead f with
          | error fault => simp [bind, Except.bind]
          | ok orig' =>
              rw [ok_bind]
              split
              · rename_i hnext
                exact ih (i + 1) hnext orig'
              · simp

/-- Where the head is below that, the loop copies every frame from `i` on. -/
theorem copyAll_spec (h : this.Valid) (hhead : this.head < 2 ^ 31 - 1) (n i : Nat) {orig : Stack D} (ho : orig.Fits)
    (hi : i ≤ this.size) (hframes : orig.frames = this.frames.take i) (hn : this.size - i < n) :
    ∃ out, Stack.copyAll this n i orig = .ok out ∧ out.Fits ∧ out.frames = this.frames := by
  have hsize : this.size = this.head + 1 := by
    rcases h.size_cases with ⟨-, hempty⟩ | ⟨hsize, -⟩
    · unfold noHead at hempty
      omega
    · exact hsize
  induction n generalizing i orig with
  | zero => omega
  | succ n ih =>
      unfold Stack.copyAll
      by_cases hle : i ≤ this.head
      · have hlt : i < this.frames.length := by
          rw [h.frames_length]
          omega
        have horig : orig.size = i := by
          rw [← ho.frames_length, hframes, List.length_take]
          omega
        obtain ⟨o₁, hrun₁, hfits₁, hframes₁, -, -⟩ := Stack.push_setHead ho (by omega) this.frames[i]
        obtain ⟨out, hrun, hfits, hall⟩ := ih (i + 1) hfits₁ (by omega)
          (by rw [hframes₁, hframes, List.take_succ_eq_append_getElem hlt]) (by omega)
        refine ⟨out, ?_, hfits, hall⟩
        rw [if_pos hle, Stack.read_spec h.toFits (List.getElem?_eq_getElem hlt), ok_bind, hrun₁, ok_bind,
          if_pos (by omega)]
        exact hrun
      · refine ⟨orig, if_neg hle, ho, ?_⟩
        rw [hframes, List.take_of_length_le]
        rw [h.frames_length]
        omega

/-- **`transfer`** returns with a copy of the source, whatever the destination held, if and only if the source
    has a frame, and fewer than `2 ^ 31`. -/
theorem transfer_exact (h : this.Valid) (ho : orig.Valid) :
    (∃ out, this.transfer orig = .ok out ∧ out.Valid ∧ out.frames = this.frames ∧ out.size = this.size ∧
        out.tail = this.tail) ↔ this.frames ≠ [] ∧ this.frames.length < 2 ^ 31 := by
  have hlen := h.frames_length
  unfold Stack.transfer
  constructor
  · rintro ⟨out, hrun, -⟩
    have hhead : this.head < 2 ^ 31 - 1 := by
      by_contra hge
      cases hcopy : Stack.copyAll this (this.stack.length + 1) 0 orig.reset with
      | error fault =>
          rw [hcopy] at hrun
          cases hrun
      | ok o => exact copyAll_diverges (by omega) _ 0 (by decide) _ o hcopy
    rcases h.size_cases with ⟨-, hempty⟩ | ⟨hsize, -⟩
    · unfold noHead at hempty
      omega
    · exact ⟨List.ne_nil_of_length_pos (by omega), by omega⟩
  · rintro ⟨hne, hsmall⟩
    have hpos : 0 < this.frames.length := List.length_pos_iff.mpr hne
    obtain ⟨hsize, hlt⟩ := h.head_ne (by omega)
    obtain ⟨hvalid, hnil⟩ := Stack.reset_spec ho.toFits
    obtain ⟨o, hcopy, hfits, hframes⟩ := copyAll_spec h (by omega) (this.stack.length + 1) 0 hvalid.toFits (by omega)
      (by rw [hnil, List.take_zero]) (by rw [h.length]; omega)
    have hosize : o.size = this.size := by
      rw [← hfits.frames_length, hframes, hlen]
    have hfits' : ({ o with tail := this.tail } : Stack D).Fits := ⟨hfits.length, hfits.pow, hfits.head⟩
    refine ⟨{ o with tail := this.tail }, by rw [hcopy, ok_bind], hfits'.valid ?_, hframes, hosize, rfl⟩
    show this.tail < o.size
    rw [hosize]
    exact h.tail_lt (by omega)

end Transfer

/-- Four frames and a tail are copied over the one frame of a thief. -/
theorem transfer_exact_stolen : ∃ out, (ofFrames twoHelpersFrames 1).transfer (ofFrames [⟨0, ()⟩] 0) = .ok out ∧ out.Valid ∧
    out.frames = twoHelpersFrames ∧ out.size = 4 ∧ out.tail = 1 := by
  have hframes : (ofFrames twoHelpersFrames 1).frames = twoHelpersFrames := by decide +kernel
  have hvalid : (ofFrames twoHelpersFrames 1).Valid := run_stolenOnce.valid 0
  have hthief : (ofFrames [⟨0, ()⟩] 0).Valid := run_stolenOnce.valid 1
  obtain ⟨out, hrun, hout, hsame, hsize, htail⟩ := (transfer_exact hvalid hthief).mpr (by rw [hframes]; decide)
  exact ⟨out, hrun, hout, hsame.trans hframes, hsize, htail⟩

/-- An empty stack is not copied: the loop runs out of the array. -/
theorem transfer_empty : (Stack.new : Stack Unit).Valid ∧
    ∀ out, (Stack.new : Stack Unit).transfer Stack.new ≠ .ok out := by
  refine ⟨Stack.valid_new, fun out hrun => ?_⟩
  unfold Stack.transfer at hrun
  cases hcopy : Stack.copyAll Stack.new ((Stack.new : Stack Unit).stack.length + 1) 0 (Stack.new : Stack Unit).reset with
  | error fault =>
      rw [hcopy] at hrun
      cases hrun
  | ok o => exact copyAll_diverges (show 2 ^ 31 - 1 ≤ noHead by decide) _ 0 (by decide) _ o hcopy

end FOrder.Rdtool
