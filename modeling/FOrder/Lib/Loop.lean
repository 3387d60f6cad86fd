import Mathlib.Tactic.Common

/-!
# `Lib.Loop` — loops with fuel

A `while` loop whose body may fail, run for at most `fuel` turns. What it *settles* on is its result for all fuel from
some amount on: a loop that never ends settles on the failure for want of fuel, and on nothing else.
-/

namespace FOrder

variable {σ ε α β : Type}

/-- The result from some amount of fuel on. -/
def Settles (f : Nat → Except ε α) (r : Except ε α) : Prop := ∃ enough, ∀ fuel, enough ≤ fuel → f fuel = r

/-- What needs no fuel has its value at every fuel. -/
theorem settles_const (r : Except ε α) : Settles (fun _ => r) r := ⟨0, fun _ _ => rfl⟩

/-- A computation settles on one result: two fuels large enough for both give the same one. -/
theorem Settles.unique {f : Nat → Except ε α} {r r' : Except ε α} (h : Settles f r) (h' : Settles f r') : r = r' := by
  obtain ⟨n, hn⟩ := h
  obtain ⟨n', hn'⟩ := h'
  rw [← hn (max n n') (Nat.le_max_left n n'), hn' (max n n') (Nat.le_max_right n n')]

/-- Settling composes along `>>=`: with enough fuel for both halves the whole settles on what the second half
    settles on. -/
theorem Settles.bind {f : Nat → Except ε α} {g : Nat → α → Except ε β} {a : α} {r : Except ε β}
    (h : Settles f (.ok a)) (hg : Settles (fun fuel => g fuel a) r) : Settles (fun fuel => f fuel >>= g fuel) r := by
  obtain ⟨n, hn⟩ := h
  obtain ⟨n', hn'⟩ := hg
  refine ⟨max n n', ?_⟩
  intro fuel hfuel
  show f fuel >>= g fuel = r
  rw [hn fuel (Nat.le_trans (Nat.le_max_left n n') hfuel)]
  exact hn' fuel (Nat.le_trans (Nat.le_max_right n n') hfuel)

/-- A first half that settles on an error is the end of the whole. -/
theorem Settles.bind_error {f : Nat → Except ε α} (g : Nat → α → Except ε β) {e : ε} (h : Settles f (.error e)) :
    Settles (fun fuel => f fuel >>= g fuel) (.error e) := by
  obtain ⟨n, hn⟩ := h
  refine ⟨n, ?_⟩
  intro fuel hfuel
  show f fuel >>= g fuel = _
  rw [hn fuel hfuel]
  rfl

theorem ok_bind (a : α) (f : α → Except ε β) : Except.ok a >>= f = f a := rfl

/-- An `ok` result of a bind comes from two `ok` results. -/
theorem bind_eq_ok {x : Except ε α} {f : α → Except ε β} {b : β} :
    x >>= f = .ok b ↔ ∃ a, x = .ok a ∧ f a = .ok b := by
  cases x with
  | error e => exact ⟨fun h => (nomatch h), fun ⟨_, h, _⟩ => by cases h⟩
  | ok a =>
      constructor
      · exact fun h => ⟨a, rfl, h⟩
      · rintro ⟨_, ⟨⟩, h⟩
        exact h

/-- A failure of a bind is a failure of one of the two. -/
theorem bind_eq_error {x : Except ε α} {f : α → Except ε β} {e : ε} :
    x >>= f = .error e ↔ x = .error e ∨ ∃ a, x = .ok a ∧ f a = .error e := by
  cases x with
  | error e' =>
      constructor
      · exact fun h => Or.inl (congrArg Except.error (Except.error.inj h))
      · rintro (h | ⟨_, h, _⟩)
        · exact congrArg Except.error (Except.error.inj h)
        · cases h
  | ok a =>
      constructor
      · exact fun h => Or.inr ⟨a, rfl, h⟩
      · rintro (h | ⟨_, ⟨⟩, h⟩)
        · cases h
        · exact h

/-- An error of `x >>= f` is one of `x` or one of `f`, so it is enough to exclude both. -/
theorem bind_ne_error {x : Except ε α} {f : α → Except ε β} {e : ε} (hx : x ≠ .error e)
    (hf : ∀ a, x = .ok a → f a ≠ .error e) : x >>= f ≠ .error e := by
  intro h
  rcases bind_eq_error.mp h with h | ⟨a, ha, h⟩
  · exact hx h
  · exact hf a ha h

/-- `while (go) body`, for at most `fuel` turns; `out` is what it fails with when there is no fuel left. -/
def loop (out : ε) (go : σ → Bool) (body : σ → Except ε σ) : Nat → σ → Except ε σ
  | 0, _ => .error out
  | fuel + 1, s => if go s then body s >>= loop out go body fuel else .ok s

section Loop

variable {out : ε} {go : σ → Bool} {body : σ → Except ε σ} {s s' : σ} {r : Except ε σ} {fuel : Nat}

/-- One unfolding of the loop where the guard is off: no fuel is spent inside. -/
theorem loop_exit (h : go s = false) : loop out go body (fuel + 1) s = .ok s := by
  rw [loop, h]
  rfl

/-- One unfolding of the loop where the guard is on: the body, then the loop with one fuel less. -/
theorem loop_turn (h : go s = true) : loop out go body (fuel + 1) s = body s >>= loop out go body fuel := by
  rw [loop, h]
  rfl

/-- A loop whose guard is off settles on the state it was given. -/
theorem settles_exit (h : go s = false) : Settles (fun fuel => loop out go body fuel s) (.ok s) := by
  refine ⟨1, ?_⟩
  intro fuel hfuel
  obtain ⟨n, rfl⟩ := Nat.exists_eq_add_of_le' hfuel
  exact loop_exit h

/-- **One turn.** -/
theorem settles_turn (h : go s = true) (hbody : body s = .ok s')
    (hrest : Settles (fun fuel => loop out go body fuel s') r) : Settles (fun fuel => loop out go body fuel s) r := by
  obtain ⟨n, hn⟩ := hrest
  refine ⟨n + 1, ?_⟩
  intro fuel hfuel
  obtain ⟨m, rfl⟩ := Nat.exists_eq_add_of_le' (Nat.le_trans (Nat.le_add_left 1 n) hfuel)
  show loop out go body (m + 1) s = r
  rw [loop_turn h, hbody]
  exact hn m (Nat.le_of_succ_le_succ hfuel)

/-- A body that fails ends the loop with its error. -/
theorem settles_turn_error {e : ε} (h : go s = true) (hbody : body s = .error e) :
    Settles (fun fuel => loop out go body fuel s) (.error e) := by
  refine ⟨1, ?_⟩
  intro fuel hfuel
  obtain ⟨n, rfl⟩ := Nat.exists_eq_add_of_le' hfuel
  show loop out go body (n + 1) s = _
  rw [loop_turn h, hbody]
  rfl

/-- What a loop comes to before its fuel runs out, it comes to with more. -/
theorem settles_of_loop (h : loop out go body fuel s = r) (hr : r ≠ .error out) :
    Settles (fun fuel => loop out go body fuel s) r := by
  induction fuel generalizing s with
  | zero => exact absurd h.symm hr
  | succ fuel ih =>
      cases hgo : go s with
      | false =>
          rw [loop_exit hgo] at h
          subst h
          exact settles_exit hgo
      | true =>
          rw [loop_turn hgo] at h
          cases hbody : body s with
          | error e =>
              rw [hbody] at h
              subst h
              exact settles_turn_error hgo hbody
          | ok t =>
              rw [hbody] at h
              exact settles_turn hgo hbody (ih h)

/-- With some fuel, a loop that settles has its result, or still none. -/
theorem loop_eq_or (h : Settles (fun fuel => loop out go body fuel s) r) (fuel : Nat) :
    loop out go body fuel s = r ∨ loop out go body fuel s = .error out := by
  by_cases hout : loop out go body fuel s = .error out
  · exact Or.inr hout
  · exact Or.inl ((settles_of_loop rfl hout).unique h)

/-- **The invariant rule**: what each turn keeps holds where the loop ends, and the condition does not. -/
theorem loop_inv (inv : σ → Prop) (hinv : ∀ s s', inv s → go s = true → body s = .ok s' → inv s') (hs : inv s)
    (h : loop out go body fuel s = .ok s') : inv s' ∧ go s' = false := by
  induction fuel generalizing s with
  | zero => cases h
  | succ fuel ih =>
      cases hgo : go s with
      | false =>
          rw [loop_exit hgo] at h
          cases h
          exact ⟨hs, hgo⟩
      | true =>
          rw [loop_turn hgo] at h
          obtain ⟨t, ht, hrest⟩ := bind_eq_ok.mp h
          exact ih (hinv s t hs hgo ht) hrest

/-- A loop does not end while the condition is kept. -/
theorem loop_stuck (inv : σ → Prop) (hgo : ∀ s, inv s → go s = true)
    (hinv : ∀ s s', inv s → body s = .ok s' → inv s') (hs : inv s) : loop out go body fuel s ≠ .ok s' := by
  intro h
  obtain ⟨hend, hfalse⟩ := loop_inv inv (fun s t hs _ ht => hinv s t hs ht) hs h
  rw [hgo s' hend] at hfalse
  cases hfalse

/-- A failure of the loop is the failure of a turn, or for want of fuel. -/
theorem loop_error (inv : σ → Prop) {e : ε} (hinv : ∀ s s', inv s → body s = .ok s' → inv s') (hs : inv s)
    (h : loop out go body fuel s = .error e) : e = out ∨ ∃ t, inv t ∧ body t = .error e := by
  induction fuel generalizing s with
  | zero => exact Or.inl (Except.error.inj h).symm
  | succ fuel ih =>
      cases hgo : go s with
      | false =>
          rw [loop_exit hgo] at h
          cases h
      | true =>
          rw [loop_turn hgo] at h
          rcases bind_eq_error.mp h with hfail | ⟨t, ht, hrest⟩
          · exact Or.inr ⟨s, hs, hfail⟩
          · exact ih (hinv s t hs ht) hrest

end Loop
end FOrder
