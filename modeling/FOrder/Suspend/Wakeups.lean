import FOrder.Suspend.FutureBase

/-!
# `Suspend.Wakeups` — which deques a put wakes

The waiters of a future are a chain from its tail, later from where the put stands, to the head. The put reads
`t->next` again after it has made the deque of `t` resumable: that the chain is still there is what `LinkFree` says,
and with it every wakeup is the right one. Without it the put walks into the list of another future.

`Inv` has the waiters of each future as a list, newest first, because the chain goes that way: a get puts its deque
in front of the tail by a compare-exchange, and a put wakes the newest first. The log has what has happened: a deque
is enqueued once for a future, and has been woken as often as it was enqueued, unless it still waits. Each step of
`get` and of `put` has a lemma `inv_…`.

That a put comes to its end at all is a statement about what may happen, not about one run: from any state there is
a way on for the steps of the put and of the deques it waits for (`Inv.finishes`).
-/

namespace FOrder.Suspend

variable {F D : Type} [DecidableEq F] [DecidableEq D]

/-! ## The invariant

Three places have a part of the list of a future: its tail, the links of the deques, and the local variable of its
put. `Chain` is the list as the links have it, and `PutOk` says from where the put goes along it, and which of the
links it has still to read. -/

/-- The waiters of `f`, newest first, are on a chain to its head. -/
abbrev Chain (s : State F D) (f : F) (t : Link F D) (ws : List D) : Prop :=
  LinkChain Link.deque (.head f) s.next t ws

/-- The list of `f` as its put sees it. -/
def PutOk (s : State F D) (f : F) (ws : List D) : Putter F D → Prop
  | .idle => ∃ t, s.tail f = some t ∧ Chain s f t ws
  | .testing t => s.tail f = none ∧ Chain s f t ws
  | .resuming t => s.tail f = none ∧ t ≠ .head f ∧ Chain s f t ws
  | .advancing t => s.tail f = none ∧ ∃ u, s.nextOf t = some u ∧ Chain s f u ws
  | .last t => s.tail f = none ∧ t = .head f ∧ ws = []
  | .done => s.tail f = none ∧ ws = []

/-- `waiters f` are the deques on the list of `f`. -/
structure Inv (s : State F D) (waiters : F → List D) : Prop where
  mem : ∀ f d, d ∈ waiters f ↔ WaitsOn s d f
  nodup : ∀ f, (waiters f).Nodup
  put : ∀ f, PutOk s f (waiters f) (s.put f)
  link : ∀ d f t, s.deque d = .swapping f t → s.next d = some t
  own : ∀ f d g, .resumed f d g ∈ s.log → g = f ∧ s.tail f = none
  count : ∀ f d, s.log.count (.resumed f d f) + (if d ∈ waiters f then 1 else 0) = s.log.count (.enqueued d f)
  once : ∀ f d, s.log.count (.enqueued d f) ≤ 1

variable {s s' : State F D} {waiters : F → List D} {d : D} {f : F}

/-- Nobody waits at first. -/
theorem inv_init : Inv (init : State F D) fun _ => [] where
  mem := by
    intro f d
    constructor
    · intro h
      cases h
    · rintro (h | h)
      · cases h
      · cases h
  nodup := fun _ => List.nodup_nil
  put := fun f => ⟨.head f, rfl, linkChain_nil⟩
  link := by
    intro d f t h
    cases h
  own := by
    intro f d g h
    cases h
  count := fun _ _ => rfl
  once := fun _ _ => Nat.zero_le 1

omit [DecidableEq F] [DecidableEq D] in
/-- A step that leaves alone what the put of `f` looks at. -/
theorem PutOk.congr {ws : List D} {pc : Putter F D} (h : PutOk s f ws pc) (htail : s'.tail f = s.tail f)
    (hnext : ∀ d ∈ ws, s'.next d = s.next d)
    (hadvance : ∀ d, pc = .advancing (.deque d) → s'.next d = s.next d) : PutOk s' f ws pc := by
  have hchain : ∀ {t}, Chain s f t ws → Chain s' f t ws := fun hc => hc.congr hnext
  cases pc with
  | idle =>
      obtain ⟨t, ht, hc⟩ := h
      exact ⟨t, htail.trans ht, hchain hc⟩
  | testing t => exact ⟨htail.trans h.1, hchain h.2⟩
  | resuming t => exact ⟨htail.trans h.1, h.2.1, hchain h.2.2⟩
  | advancing t =>
      obtain ⟨hnone, u, hu, hc⟩ := h
      refine ⟨htail.trans hnone, u, ?_, hchain hc⟩
      cases t with
      | head g => cases hu
      | deque d =>
          show s'.next d = some u
          rw [hadvance d rfl]
          exact hu
  | last t => exact ⟨htail.trans h.1, h.2⟩
  | done => exact ⟨htail.trans h.1, h.2⟩

/-! ## Steps of a getter

A getter writes to its own link and to one tail. Its link is nobody else's business until the compare-exchange puts it
on the list, and a compare-exchange fails when the tail is not what was read. The step that may do harm is the write
of a link by a deque that has been woken and gets another future at once. -/

omit [DecidableEq F] in
/-- Who waits after a deque has gone on. -/
theorem waitsOn_setDeque {pc : Getter F D} {e : D} {g : F} :
    WaitsOn (s.setDeque d pc) e g ↔
      (e = d ∧ (pc = .enqueued g ∨ pc = .suspended g)) ∨ (e ≠ d ∧ WaitsOn s e g) := by
  unfold WaitsOn
  by_cases he : e = d
  · subst he
    simp
  · simp [he]

/-- A deque goes on in `get`, and is on the same lists before and after. -/
theorem Inv.move (h : Inv s waiters) {pc : Getter F D}
    (hsame : ∀ g, (pc = .enqueued g ∨ pc = .suspended g) ↔ WaitsOn s d g)
    (hswap : ∀ g t, pc = .swapping g t → s.next d = some t) : Inv (s.setDeque d pc) waiters where
  mem := by
    intro g e
    rw [h.mem, waitsOn_setDeque]
    by_cases he : e = d
    · subst he
      simp [hsame]
    · simp [he]
  nodup := h.nodup
  put := h.put
  link := by
    intro e g t he
    by_cases hed : e = d
    · subst hed
      rw [setDeque_deque_self] at he
      exact hswap g t he
    · rw [setDeque_deque_ne _ _ hed] at he
      exact h.link e g t he
  own := h.own
  count := h.count
  once := h.once

/-- A deque that gets a future that is not there yet is not on its list yet. -/
theorem inv_get (h : Inv s waiters) (hs : get s d f = some s') : Inv s' waiters := by
  unfold get at hs
  split at hs
  · rename_i hpc
    split at hs
    · cases hs
      exact h
    · cases hs
      apply h.move
      · simp [WaitsOn, hpc]
      · intro g t hcontra
        cases hcontra
  · cases hs

/-- It reads the tail, to link itself to it. -/
theorem inv_readTail (h : Inv s waiters) (hs : readTail s d = some s') : Inv s' waiters := by
  unfold readTail at hs
  split at hs
  · rename_i hpc
    split at hs
    · cases hs
      apply h.move
      · simp [WaitsOn, hpc]
      · intro g t hcontra
        cases hcontra
    · cases hs
      apply h.move
      · simp [WaitsOn, hpc]
      · intro g t hcontra
        cases hcontra
  · cases hs

/-- It is on the list, and gives up its worker. -/
theorem inv_suspend (h : Inv s waiters) (hs : suspend s d = some s') : Inv s' waiters := by
  unfold suspend at hs
  split at hs
  · rename_i hpc
    cases hs
    apply h.move
    · simp [WaitsOn, hpc]
    · intro g t hcontra
      cases hcontra
  · cases hs

/-- A deque that is on no list writes its link; no put stands there. -/
theorem Inv.setNext (h : Inv s waiters) {t : Link F D} (hnot : ∀ g, ¬ WaitsOn s d g)
    (hpc : ∀ g u, s.deque d ≠ .swapping g u) (hfree : ∀ g, s.put g ≠ .advancing (.deque d)) :
    Inv (s.setNext d t) waiters where
  mem := h.mem
  nodup := h.nodup
  put := by
    intro g
    refine PutOk.congr (s := s) (h.put g) rfl ?_ ?_
    · intro e he
      refine setNext_next_ne s t ?_
      rintro rfl
      exact hnot g ((h.mem g e).mp he)
    · intro e he
      refine setNext_next_ne s t ?_
      rintro rfl
      exact hfree g he
  link := by
    intro e g u he
    by_cases hed : e = d
    · subst hed
      exact absurd he (hpc g u)
    · rw [setNext_next_ne s t hed]
      exact h.link e g u he
  own := h.own
  count := h.count
  once := h.once

/-- It writes its link: here is the condition, for a put may stand at this very deque. -/
theorem inv_writeLink (h : Inv s waiters) (hfree : LinkFree s (.writeLink d))
    (hs : writeLink s d = some s') : Inv s' waiters := by
  unfold writeLink at hs
  split at hs
  · rename_i f t hpc
    cases hs
    have hwritten : Inv (s.setNext d t) waiters := by
      apply h.setNext
      · simp [WaitsOn, hpc]
      · simp [hpc]
      · exact hfree
    apply hwritten.move
    · simp [WaitsOn, State.setNext, hpc]
    · intro g u hsame
      cases hsame
      exact setNext_next_self s d t
  · cases hs

omit [DecidableEq F] [DecidableEq D] in
/-- Before its tail is taken away, the put of `f` has not begun. -/
theorem PutOk.idle {ws : List D} {t : Link F D} {pc : Putter F D} (h : PutOk s f ws pc)
    (ht : s.tail f = some t) : pc = .idle ∧ Chain s f t ws := by
  cases pc with
  | idle =>
      obtain ⟨u, hu, hc⟩ := h
      rw [ht] at hu
      obtain rfl := Option.some.inj hu
      exact ⟨rfl, hc⟩
  | _ =>
      have hnone := h.1
      rw [ht] at hnone
      cases hnone

/-- A compare-exchange that succeeds pushes the deque. -/
theorem Inv.push (h : Inv s waiters) {t : Link F D} (hpc : s.deque d = .swapping f t) (htail : s.tail f = some t) :
    Inv (((s.setTail f (some (.deque d))).setDeque d (.enqueued f)).record (.enqueued d f))
      (Function.update waiters f (d :: waiters f)) := by
  have hnot : ∀ g, ¬ WaitsOn s d g := by
    intro g
    simp [WaitsOn, hpc]
  have hnotMem : d ∉ waiters f := fun hd => hnot f ((h.mem f d).mp hd)
  obtain ⟨hidle, hchain⟩ := (h.put f).idle htail
  have hnever : s.log.count (.enqueued d f) = 0 := by
    rw [← h.count f d, if_neg hnotMem, Nat.add_zero]
    apply List.count_eq_zero.mpr
    intro hmem
    rw [(h.own f d f hmem).2] at htail
    cases htail
  refine ⟨?_, ?_, ?_, ?_, ?_, ?_, ?_⟩
  · intro g e
    show _ ↔ WaitsOn (State.setDeque _ d (.enqueued f)) e g
    rw [waitsOn_setDeque]
    by_cases hg : g = f
    · subst hg
      by_cases he : e = d
      · simp [he]
      · simp only [Function.update_self, List.mem_cons, he, h.mem, false_or, ne_eq, not_false_eq_true, true_and,
          false_and]
        exact Iff.rfl
    · by_cases he : e = d
      · subst he
        simp [hg, Ne.symm hg, h.mem, hnot]
      · simp only [Function.update_of_ne hg, h.mem, he, ne_eq, not_false_eq_true, true_and, false_and, false_or]
        exact Iff.rfl
  · intro g
    by_cases hg : g = f
    · subst hg
      rw [Function.update_self]
      exact List.nodup_cons.mpr ⟨hnotMem, h.nodup g⟩
    · rw [Function.update_of_ne hg]
      exact h.nodup g
  · intro g
    by_cases hg : g = f
    · subst hg
      rw [Function.update_self]
      show PutOk _ g _ (s.put g)
      rw [hidle]
      exact ⟨.deque d, setTail_tail_self s g _, LinkChain.push hchain (h.link d g t hpc)⟩
    · rw [Function.update_of_ne hg]
      exact (h.put g).congr (setTail_tail_ne s _ hg) (fun _ _ => rfl) (fun _ _ => rfl)
  · intro e g u he
    by_cases hed : e = d
    · subst hed
      have hself := (setDeque_deque_self (s.setTail f (some (.deque e))) e (.enqueued f)).symm.trans he
      cases hself
    · exact h.link e g u ((setDeque_deque_ne _ _ hed).symm.trans he)
  · intro g e k hmem
    have hmem : Event.resumed g e k ∈ s.log := by
      rcases List.mem_append.mp hmem with hold | hnew
      · exact hold
      · cases List.mem_singleton.mp hnew
    obtain ⟨hk, hnone⟩ := h.own g e k hmem
    refine ⟨hk, ?_⟩
    have hg : g ≠ f := by
      rintro rfl
      rw [hnone] at htail
      cases htail
    exact (setTail_tail_ne s _ hg).trans hnone
  · intro g e
    show (s.log ++ [_]).count _ + _ = (s.log ++ [_]).count _
    rw [List.count_append, List.count_append]
    have hold := h.count g e
    by_cases hpair : e = d ∧ g = f
    · obtain ⟨rfl, rfl⟩ := hpair
      rw [if_neg hnotMem] at hold
      simp
      omega
    · have hsame : (if e ∈ Function.update waiters f (d :: waiters f) g then 1 else 0) =
          if e ∈ waiters g then 1 else 0 := by
        by_cases hg : g = f
        · subst hg
          have he : e ≠ d := fun he => hpair ⟨he, rfl⟩
          simp [he]
        · rw [Function.update_of_ne hg]
      have hother : [Event.enqueued d f].count (.enqueued e g) = 0 := by
        apply List.count_eq_zero.mpr
        intro hmem
        cases List.mem_singleton.mp hmem
        exact hpair ⟨rfl, rfl⟩
      rw [hsame, hother]
      simpa using hold
  · intro g e
    show (s.log ++ [_]).count _ ≤ 1
    rw [List.count_append]
    by_cases hpair : e = d ∧ g = f
    · obtain ⟨rfl, rfl⟩ := hpair
      rw [hnever]
      simp
    · have hother : [Event.enqueued d f].count (.enqueued e g) = 0 := by
        apply List.count_eq_zero.mpr
        intro hmem
        cases List.mem_singleton.mp hmem
        exact hpair ⟨rfl, rfl⟩
      rw [hother]
      exact h.once g e

/-- The compare-exchange: it succeeds and the deque is on the list, or it fails and reads again. -/
theorem inv_compareExchange (h : Inv s waiters) (hs : compareExchange s d = some s') :
    ∃ waiters', Inv s' waiters' := by
  unfold compareExchange at hs
  split at hs
  · rename_i f t hpc
    split at hs
    · rename_i htail
      cases hs
      exact ⟨_, h.push hpc htail⟩
    · cases hs
      refine ⟨waiters, h.move ?_ ?_⟩
      · simp [WaitsOn, hpc]
      · intro g u hcontra
        cases hcontra
  · cases hs

/-! ## Steps of a put

The exchange of the tail closes the list; from then on only the put changes it. It stands at a deque, makes it
resumable when that is suspended, and only then reads the link of it, to go on to the next. -/

/-- The put of `f` goes on, and its list stays what it is. -/
theorem Inv.advance (h : Inv s waiters) {pc : Putter F D} (hput : PutOk s f (waiters f) pc) :
    Inv (s.setPut f pc) waiters where
  mem := h.mem
  nodup := h.nodup
  put := by
    intro g
    by_cases hg : g = f
    · subst hg
      rw [setPut_put_self]
      exact hput.congr rfl (fun _ _ => rfl) (fun _ _ => rfl)
    · rw [setPut_put_ne s pc hg]
      exact (h.put g).congr rfl (fun _ _ => rfl) (fun _ _ => rfl)
  link := h.link
  own := h.own
  count := h.count
  once := h.once

/-- The put takes the tail away: no deque comes to the list any more. -/
theorem inv_exchange (h : Inv s waiters) (hs : exchange s f = some s') : Inv s' waiters := by
  unfold exchange at hs
  split at hs
  · obtain ⟨t, htail, rfl⟩ := Option.map_eq_some_iff.mp hs
    obtain ⟨-, hchain⟩ := (h.put f).idle htail
    refine ⟨h.mem, h.nodup, ?_, h.link, ?_, h.count, h.once⟩
    · intro g
      by_cases hg : g = f
      · subst hg
        rw [setPut_put_self]
        exact ⟨setTail_tail_self s g none, hchain⟩
      · rw [setPut_put_ne _ _ hg]
        exact (h.put g).congr (setTail_tail_ne s none hg) (fun _ _ => rfl) (fun _ _ => rfl)
    · intro g e k hmem
      obtain ⟨hk, hnone⟩ := h.own g e k hmem
      refine ⟨hk, ?_⟩
      by_cases hg : g = f
      · subst hg
        exact setTail_tail_self s g none
      · exact (setTail_tail_ne s none hg).trans hnone
  · cases hs

/-- It looks whether it is at the head. -/
theorem inv_test (h : Inv s waiters) (hs : test s f = some s') : Inv s' waiters := by
  unfold test at hs
  split at hs
  · rename_i t hpc
    cases hs
    have hput := h.put f
    rw [hpc] at hput
    obtain ⟨htail, hchain⟩ := hput
    apply h.advance
    cases hws : waiters f with
    | nil =>
        rw [hws] at hchain
        have ht : t = .head f := hchain
        subst ht
        rw [if_pos (show s.nextOf (.head f) = none from rfl)]
        exact ⟨htail, rfl, rfl⟩
    | cons e es =>
        rw [hws] at hchain
        have hchain' := hchain
        obtain ⟨rfl, u, hu, -⟩ := hchain'
        have hnext : s.nextOf (.deque e) = some u := hu
        rw [if_neg (by simp [hnext])]
        refine ⟨htail, ?_, hchain⟩
        intro hcontra
        cases hcontra
  · cases hs

/-- It reads the link of the deque it has woken. -/
theorem inv_advance (h : Inv s waiters) (hs : advance s f = some s') : Inv s' waiters := by
  unfold Suspend.advance at hs
  split at hs
  · rename_i t hpc
    obtain ⟨u, hu, rfl⟩ := Option.map_eq_some_iff.mp hs
    have hput := h.put f
    rw [hpc] at hput
    obtain ⟨htail, v, hv, hchain⟩ := hput
    rw [hu] at hv
    obtain rfl := Option.some.inj hv
    apply h.advance
    exact ⟨htail, hchain⟩
  · cases hs

omit [DecidableEq F] [DecidableEq D] in
/-- A deque waits on one future at a time. -/
theorem WaitsOn.eq_of_suspended {g : F} (h : WaitsOn s d f) (hpc : s.deque d = .suspended g) : g = f := by
  rcases h with h | h
  · rw [hpc] at h
    cases h
  · rw [hpc] at h
    cases h
    rfl

/-- The put of `f` wakes the newest of its waiters. -/
theorem Inv.wake (h : Inv s waiters) {rest : List D} {u : Link F D} (hws : waiters f = d :: rest)
    (htail : s.tail f = none) (hnext : s.next d = some u) (hchain : Chain s f u rest) :
    Inv (((s.setDeque d .running).record (.resumed f d f)).setPut f (.advancing (.deque d)))
      (Function.update waiters f rest) := by
  have hmem : d ∈ waiters f := hws ▸ List.mem_cons_self
  have hwaits : WaitsOn s d f := (h.mem f d).mp hmem
  obtain ⟨hnotMem, hnodup⟩ := List.nodup_cons.mp (hws ▸ h.nodup f)
  have honly : ∀ g, WaitsOn s d g → g = f := by
    rintro g (hg | hg)
    · rcases hwaits with hf | hf
      · rw [hg] at hf
        cases hf
        rfl
      · rw [hg] at hf
        cases hf
    · exact (WaitsOn.eq_of_suspended hwaits hg)
  refine ⟨?_, ?_, ?_, ?_, ?_, ?_, ?_⟩
  · intro g e
    show _ ↔ WaitsOn (s.setDeque d .running) e g
    rw [waitsOn_setDeque]
    by_cases hg : g = f
    · subst hg
      rw [Function.update_self, ← h.mem, hws]
      by_cases he : e = d
      · subst he
        simp [hnotMem]
      · simp [he]
    · rw [Function.update_of_ne hg, h.mem]
      by_cases he : e = d
      · subst he
        simp only [ne_eq, not_true_eq_false, false_and, reduceCtorEq, or_self, and_false, iff_false]
        exact fun hw => hg (honly g hw)
      · simp [he]
  · intro g
    by_cases hg : g = f
    · subst hg
      rw [Function.update_self]
      exact hnodup
    · rw [Function.update_of_ne hg]
      exact h.nodup g
  · intro g
    by_cases hg : g = f
    · subst hg
      rw [Function.update_self, setPut_put_self]
      exact ⟨htail, u, hnext, hchain⟩
    · rw [Function.update_of_ne hg, setPut_put_ne _ _ hg]
      exact (h.put g).congr rfl (fun _ _ => rfl) (fun _ _ => rfl)
  · intro e g t he
    by_cases hed : e = d
    · subst hed
      have hself := (setDeque_deque_self s e .running).symm.trans he
      cases hself
    · exact h.link e g t ((setDeque_deque_ne s _ hed).symm.trans he)
  · intro g e k hlog
    rcases List.mem_append.mp hlog with hold | hnew
    · exact h.own g e k hold
    · cases List.mem_singleton.mp hnew
      exact ⟨rfl, htail⟩
  · intro g e
    show (s.log ++ [_]).count _ + _ = (s.log ++ [_]).count _
    rw [List.count_append, List.count_append]
    have hold := h.count g e
    have hnone : [Event.resumed f d f].count (.enqueued e g) = 0 := by
      apply List.count_eq_zero.mpr
      intro hmem
      cases List.mem_singleton.mp hmem
    rw [hnone]
    by_cases hpair : e = d ∧ g = f
    · obtain ⟨rfl, rfl⟩ := hpair
      rw [if_pos hmem] at hold
      rw [Function.update_self, if_neg hnotMem, List.count_singleton_self]
      omega
    · have hsame : (if e ∈ Function.update waiters f rest g then 1 else 0) =
          if e ∈ waiters g then 1 else 0 := by
        by_cases hg : g = f
        · subst hg
          have he : e ≠ d := fun he => hpair ⟨he, rfl⟩
          rw [Function.update_self, hws]
          simp [he]
        · rw [Function.update_of_ne hg]
      have hother : [Event.resumed f d f].count (.resumed g e g) = 0 := by
        apply List.count_eq_zero.mpr
        intro hmem
        cases List.mem_singleton.mp hmem
        exact hpair ⟨rfl, rfl⟩
      rw [hsame, hother]
      exact hold
  · intro g e
    show (s.log ++ [_]).count _ ≤ 1
    rw [List.count_append]
    have hnone : [Event.resumed f d f].count (.enqueued e g) = 0 := by
      apply List.count_eq_zero.mpr
      intro hmem
      cases List.mem_singleton.mp hmem
    rw [hnone]
    exact h.once g e

/-- The deque a put of `f` is about to wake is the newest of its waiters. -/
theorem Inv.resuming (h : Inv s waiters) {t : Link F D} (hpc : s.put f = .resuming t) :
    s.tail f = none ∧ ∃ d rest u, t = .deque d ∧ waiters f = d :: rest ∧ s.next d = some u ∧ Chain s f u rest := by
  have hput := h.put f
  rw [hpc] at hput
  obtain ⟨htail, hhead, hchain⟩ := hput
  refine ⟨htail, ?_⟩
  cases hws : waiters f with
  | nil =>
      rw [hws] at hchain
      exact absurd hchain hhead
  | cons d rest =>
      rw [hws] at hchain
      obtain ⟨ht, u, hu, hrest⟩ := hchain
      exact ⟨d, rest, u, ht, rfl, hu, hrest⟩

/-- It makes a deque resumable, once that is suspended. -/
theorem inv_resume (h : Inv s waiters) (hs : resume s f = some s') : ∃ waiters', Inv s' waiters' := by
  unfold resume at hs
  split at hs
  · rename_i t hpc
    obtain ⟨htail, d, rest, u, rfl, hws, hu, hrest⟩ := h.resuming hpc
    obtain ⟨s₁, hs₁, rfl⟩ := Option.map_eq_some_iff.mp hs
    obtain ⟨g, hpc', rfl⟩ := makeResumable_deque hs₁
    have hwaits : WaitsOn s d f := (h.mem f d).mp (hws ▸ List.mem_cons_self)
    obtain rfl := hwaits.eq_of_suspended hpc'
    exact ⟨_, h.wake hws htail hu hrest⟩
  · cases hs

/-- A put that stands at the last link stands at the head, and has woken everybody. -/
theorem inv_finish (h : Inv s waiters) (hs : finish s f = some s') : Inv s' waiters := by
  have hput := h.put f
  unfold finish at hs
  split at hs
  · rename_i hpc
    cases hs
    rw [hpc] at hput
    exact h.advance ⟨hput.1, hput.2.2⟩
  · rename_i t hnot hpc
    rw [hpc] at hput
    obtain ⟨-, rfl, -⟩ := hput
    exact absurd rfl (hnot f)
  · cases hs

/-- **One step** of any get or put. -/
theorem inv_step {a : Action F D} (h : ∃ waiters, Inv s waiters) (hfree : LinkFree s a)
    (hs : step s a = some s') : ∃ waiters, Inv s' waiters := by
  obtain ⟨waiters, h⟩ := h
  cases a with
  | get d f => exact ⟨waiters, inv_get h hs⟩
  | readTail d => exact ⟨waiters, inv_readTail h hs⟩
  | writeLink d => exact ⟨waiters, inv_writeLink h hfree hs⟩
  | compareExchange d => exact inv_compareExchange h hs
  | suspend d => exact ⟨waiters, inv_suspend h hs⟩
  | exchange f => exact ⟨waiters, inv_exchange h hs⟩
  | test f => exact ⟨waiters, inv_test h hs⟩
  | resume f => exact inv_resume h hs
  | advance f => exact ⟨waiters, inv_advance h hs⟩
  | finish f => exact ⟨waiters, inv_finish h hs⟩

/-! ## The wakeups

First that a put comes to its end, by a run of its own steps and the suspensions that it waits for. Then what the log
says by the invariant, in every run whose steps meet the condition, and one run that does not meet it. -/

/-- A step that the put takes or waits for. -/
theorem reaches_of_put {a : Action F D} (hstep : step s a = some s') (ha : putStep f s a) :
    Reaches step (putStep f) s s' := Reaches.of_step ha hstep

/-- From one waiter to the next: the put waits for the deque to be suspended, wakes it and moves on. -/
theorem Inv.wakeNext (h : Inv s waiters) {t : Link F D} (hpc : s.put f = .resuming t) :
    ∃ s' waiters' u, Reaches step (putStep f) s s' ∧ Inv s' waiters' ∧ s'.put f = .testing u ∧
      (waiters' f).length < (waiters f).length := by
  obtain ⟨htail, d, rest, u, rfl, hws, hu, hrest⟩ := h.resuming hpc
  have hwaits : WaitsOn s d f := (h.mem f d).mp (hws ▸ List.mem_cons_self)
  have hlen : (Function.update waiters f rest f).length < (waiters f).length := by
    rw [Function.update_self, hws]
    exact Nat.lt_succ_self _
  -- once the deque is suspended
  have hgo : ∀ s₁ : State F D, Inv s₁ waiters → s₁.put f = .resuming (.deque d) → s₁.tail f = none →
      s₁.next d = some u → Chain s₁ f u rest → s₁.deque d = .suspended f →
      ∃ s' waiters' u, Reaches step (putStep f) s₁ s' ∧ Inv s' waiters' ∧ s'.put f = .testing u ∧
        (waiters' f).length < (waiters f).length := by
    intro s₁ h₁ hpc₁ htail₁ hu₁ hrest₁ hsusp
    have hwoken := h₁.wake hws htail₁ hu₁ hrest₁
    have hresume : step s₁ (.resume f) =
        some (((s₁.setDeque d .running).record (.resumed f d f)).setPut f (.advancing (.deque d))) := by
      simp [step, resume, makeResumable, hpc₁, hsusp]
    have hadvance : step (((s₁.setDeque d .running).record (.resumed f d f)).setPut f (.advancing (.deque d)))
        (.advance f) = some ((((s₁.setDeque d .running).record (.resumed f d f)).setPut f
          (.advancing (.deque d))).setPut f (.testing u)) := by
      show Suspend.advance _ _ = _
      unfold Suspend.advance
      rw [setPut_put_self]
      show Option.map _ (s₁.next d) = _
      rw [hu₁]
      rfl
    refine ⟨_, _, u, ?_, inv_advance hwoken hadvance, setPut_put_self _ f _, hlen⟩
    exact (reaches_of_put hresume rfl).trans (reaches_of_put hadvance rfl)
  rcases hwaits with henq | hsusp
  · have hstep : step s (.suspend d) = some (s.setDeque d (.suspended f)) := by
      simp [step, suspend, henq]
    obtain ⟨s', waiters', v, hr, hinv, hput, hlt⟩ := hgo (s.setDeque d (.suspended f)) (inv_suspend h hstep) hpc
      htail hu hrest (setDeque_deque_self s d _)
    exact ⟨s', waiters', v, (reaches_of_put hstep henq).trans hr, hinv, hput, hlt⟩
  · exact hgo s h hpc htail hu hrest hsusp

/-- A put that has begun can be brought to its end; the induction is on the number of its waiters. -/
theorem Inv.finishes {n : Nat} (h : Inv s waiters) (hn : (waiters f).length = n) (hbegun : s.put f ≠ .idle) :
    ∃ s', Reaches step (putStep f) s s' ∧ s'.put f = .done := by
  induction n using Nat.strongRecOn generalizing s waiters with
  | ind n ih =>
      -- from the last link on
      have hlast : ∀ s₁ : State F D, s₁.put f = .last (.head f) →
          ∃ s', Reaches step (putStep f) s₁ s' ∧ s'.put f = .done := by
        intro s₁ hpc
        have hfinish : step s₁ (.finish f) = some (s₁.setPut f .done) := by
          simp [step, finish, hpc]
        exact ⟨_, reaches_of_put hfinish rfl, setPut_put_self s₁ f .done⟩
      -- from a waiter on
      have hresuming : ∀ s₁ t, Inv s₁ waiters → s₁.put f = .resuming t →
          ∃ s', Reaches step (putStep f) s₁ s' ∧ s'.put f = .done := by
        intro s₁ t h₁ hpc
        obtain ⟨s₂, waiters₂, u, hr, h₂, hpc₂, hlt⟩ := h₁.wakeNext hpc
        have hbegun₂ : s₂.put f ≠ .idle := by
          rw [hpc₂]
          intro hcontra
          cases hcontra
        obtain ⟨s', hr', hdone⟩ := ih _ (hn ▸ hlt) h₂ rfl hbegun₂
        exact ⟨s', hr.trans hr', hdone⟩
      have htesting : ∀ s₁ t, Inv s₁ waiters → s₁.put f = .testing t →
          ∃ s', Reaches step (putStep f) s₁ s' ∧ s'.put f = .done := by
        intro s₁ t h₁ hpc
        have htest : step s₁ (.test f) =
            some (s₁.setPut f (if s₁.nextOf t = none then .last t else .resuming t)) := by
          simp [step, test, hpc]
        have h₂ := inv_test h₁ htest
        by_cases hnext : s₁.nextOf t = none
        · rw [if_pos hnext] at htest h₂
          have hput := h₂.put f
          rw [setPut_put_self] at hput
          obtain ⟨-, rfl, -⟩ := hput
          obtain ⟨s', hr, hdone⟩ := hlast _ (setPut_put_self s₁ f _)
          exact ⟨s', (reaches_of_put htest rfl).trans hr, hdone⟩
        · rw [if_neg hnext] at htest h₂
          obtain ⟨s', hr, hdone⟩ := hresuming _ t h₂ (setPut_put_self s₁ f _)
          exact ⟨s', (reaches_of_put htest rfl).trans hr, hdone⟩
      have hput := h.put f
      cases hpc : s.put f with
      | idle => exact absurd hpc hbegun
      | testing t => exact htesting s t h hpc
      | resuming t => exact hresuming s t h hpc
      | advancing t =>
          rw [hpc] at hput
          obtain ⟨-, u, hu, -⟩ := hput
          have hadvance : step s (.advance f) = some (s.setPut f (.testing u)) := by
            simp [step, Suspend.advance, hpc, hu]
          obtain ⟨s', hr, hdone⟩ := htesting _ u (inv_advance h hadvance) (setPut_put_self s f _)
          exact ⟨s', (reaches_of_put hadvance rfl).trans hr, hdone⟩
      | last t =>
          rw [hpc] at hput
          obtain ⟨-, rfl, -⟩ := hput
          exact hlast s hpc
      | done => exact ⟨s, Reaches.refl, hpc⟩

/-- What the invariant says at the end: each wakeup is for the future that was put, and no waiter is lost. -/
theorem Inv.rightWakeups (h : Inv s waiters) : RightWakeups s where
  own := by
    intro f d g hlog
    obtain ⟨rfl, -⟩ := h.own f d g hlog
    refine ⟨rfl, ?_⟩
    have hcount := h.count g d
    have hpos := List.count_pos_iff.mpr hlog
    apply List.count_pos_iff.mp
    omega
  atMostOnce := by
    intro f d
    have hcount := h.count f d
    have honce := h.once f d
    omega
  all := by
    intro f d hdone hlog
    have hput := h.put f
    rw [hdone] at hput
    have hcount := h.count f d
    rw [hput.2, if_neg List.not_mem_nil] at hcount
    have hpos := List.count_pos_iff.mpr hlog
    apply List.count_pos_iff.mp
    omega
  finishes := fun _ => h.finishes rfl

/-- **The right waiters are woken** in every run in which no deque writes its link while a put that has made it
resumable has still to read it. -/
theorem rightWakeups_of_linkFree (hr : Reaches step LinkFree (init : State F D) s) : RightWakeups s := by
  obtain ⟨waiters, h⟩ := hr.invariant (fun s => ∃ waiters, Inv s waiters) ⟨_, inv_init⟩
    fun s a s' h hfree hs => inv_step h hfree hs
  exact h.rightWakeups

/-- Deques `0` and `1` wait on future `0` and are both woken by its put. -/
theorem rightWakeups_of_linkFree_twoWaiters :
    ∃ s : State (Fin 2) (Fin 3), RightWakeups s ∧
      s.log = [.enqueued 1 0, .enqueued 0 0, .resumed 0 0 0, .resumed 0 1 0] := by
  have hlog : (([.get 1 0, .readTail 1, .writeLink 1, .compareExchange 1, .suspend 1, .get 0 0, .readTail 0,
      .writeLink 0, .compareExchange 0, .suspend 0, .exchange 0, .test 0, .resume 0, .advance 0, .test 0, .resume 0,
      .advance 0, .test 0, .finish 0] : List (Action (Fin 2) (Fin 3))).foldlM
        (fun s a => if LinkFree s a then step s a else none) init).map State.log =
      some [.enqueued 1 0, .enqueued 0 0, .resumed 0 0 0, .resumed 0 1 0] := by
    decide
  obtain ⟨s, hs, hlog⟩ := Option.map_eq_some_iff.mp hlog
  exact ⟨s, rightWakeups_of_linkFree (Reaches.of_foldlM hs), hlog⟩

/-- **The put of another future wakes a waiter.** Deque `0`, woken by the put of future `0`, gets future `1`, on
which deque `2` waits, and writes its link before that put has read it: the put goes on in the list of future `1`,
wakes deque `2`, and deque `1`, which waits on future `0`, is lost. -/
theorem not_rightWakeups :
    ¬ ∀ s : State (Fin 2) (Fin 3), Reaches step (fun _ _ => True) init s → RightWakeups s := by
  intro hall
  have hlog : (([.get 1 0, .readTail 1, .writeLink 1, .compareExchange 1, .suspend 1, .get 0 0, .readTail 0,
      .writeLink 0, .compareExchange 0, .suspend 0, .get 2 1, .readTail 2, .writeLink 2, .compareExchange 2,
      .suspend 2, .exchange 0, .test 0, .resume 0, .get 0 1, .readTail 0, .writeLink 0, .advance 0, .test 0,
      .resume 0, .advance 0, .test 0, .finish 0] : List (Action (Fin 2) (Fin 3))).foldlM
        (fun s a => if True then step s a else none) init).map (fun s => (s.put 0, s.deque 1, s.log)) =
      some (.done, .suspended 0,
        [.enqueued 1 0, .enqueued 0 0, .enqueued 2 1, .resumed 0 0 0, .resumed 0 2 1]) := by
    decide
  obtain ⟨s, hs, heq⟩ := Option.map_eq_some_iff.mp hlog
  have hresumed : Event.resumed (0 : Fin 2) (2 : Fin 3) 1 ∈ s.log := by
    rw [(Prod.mk.inj (Prod.mk.inj heq).2).2]
    simp
  have hreached : Reaches step (fun _ _ => True) init s := Reaches.of_foldlM hs
  have hown := ((hall s hreached).own 0 2 1 hresumed).1
  exact absurd hown (by decide)

end FOrder.Suspend
