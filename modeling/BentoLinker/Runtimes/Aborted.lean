import BentoLinker.Runtimes.Effects

/-!
# Boxes that Have Failed

What is left of a box after a falible call of it has ended in an error.

- `Dead`: a box that has failed is not marked initialized, and no export of it is called
- `Careful`: failures that the glue notices, and callers that look at the flag
- `dead_run`: boxes are dead in runs of careful steps
- `not_dead_neighbours`: a trap leaves the flag of the box as it is

The abort functions of the longjmp runtimes and `__box_faultsetup` clear the flag. The
wrappers of the interpreters just return the error.
-/

namespace BentoLinker.Runtimes

variable {ι : Type} [DecidableEq ι] {c : Config ι} {s : State ι}

/-- A falible call has ended in an error because the box failed, and the box has not been
initialized in full since: then it is not marked initialized. And no export of a box in that
state has been called. -/
structure Dead (s : State ι) : Prop where
  flag : ∀ b, (s.died b).isSome = true → s.initialized b = false
  uncalled : ∀ b, s.calledDead b = false

/-- Conditions on what is done -/
structure Careful (c : Config ι) (e : Event ι) (s : State ι) : Prop where
  /-- boxes of the interpreters that fail in a falible call are not marked anyway -/
  fails : ∀ b, (c.runtime b).interprets = true → Fails e s b → s.initialized b = false
  /-- the box has not failed since the load that its postinit belongs to -/
  completes : ∀ b load n, Completes e s b load → s.died b = some n → n < load
  /-- without lazy init the caller has to look at the flag -/
  called : ∀ b call, e = .call b call → c.lazy b = true ∨ s.initialized b = true

/-- What is carried along a run: deaths are at loads that have been. -/
structure DeadInv (s : State ι) : Prop extends Dead s where
  past : ∀ b n, s.died b = some n → n ≤ s.loads b

omit [DecidableEq ι] in
theorem deadInv_of_calm {t : State ι} (h : DeadInv s) (hcalm : Calm s t) : DeadInv t where
  flag b hdied := by
    rw [hcalm.died] at hdied
    have hflag := h.flag b hdied
    by_contra hinit
    rw [hcalm.initialized b (by simpa using hinit)] at hflag
    cases hflag
  uncalled b := by
    by_contra hcalled
    rcases hcalm.calledDead b (by simpa using hcalled) with hbefore | ⟨hinit, hdied⟩
    · rw [h.uncalled b] at hbefore
      cases hbefore
    · rw [h.flag b hdied] at hinit
      cases hinit
  past b n hdied := by
    rw [hcalm.died] at hdied
    rw [hcalm.loads]
    exact h.past b n hdied

theorem deadInv_reloaded {b : ι} (h : DeadInv s) : DeadInv (reloaded b s) where
  flag := h.flag
  uncalled := h.uncalled
  past b' n hdied := by
    refine Nat.le_trans (h.past b' n hdied) ?_
    by_cases hb : b' = b
    · subst hb
      simp [reloaded]
    · simp [reloaded, hb]

/-- A box is marked after a load that is later than its death. -/
theorem deadInv_completed {b : ι} {load : ℕ} (h : DeadInv s)
    (hlater : ∀ n, s.died b = some n → n < load) : DeadInv (completed b load s) := by
  have hself : (completed b load s).died b = none := by
    simp only [completed, Function.update_self]
    cases hdied : s.died b with
    | none => rfl
    | some n => simp [Option.filter, hlater n hdied]
  have hother : ∀ b', b' ≠ b → (completed b load s).died b' = s.died b' :=
    fun b' hb => Function.update_of_ne hb ..
  refine { flag := fun b' hdied => ?_, uncalled := h.uncalled, past := fun b' n hdied => ?_ }
  · by_cases hb : b' = b
    · subst hb
      rw [hself] at hdied
      cases hdied
    · rw [hother b' hb] at hdied
      simpa [completed, hb] using h.flag b' hdied
  · by_cases hb : b' = b
    · subst hb
      rw [hself] at hdied
      cases hdied
    · rw [hother b' hb] at hdied
      exact h.past b' n hdied

theorem deadInv_died {b : ι} (h : DeadInv s) (hb : s.initialized b = false) :
    DeadInv (died b s) where
  flag b' hdied := by
    by_cases hbb : b' = b
    · exact hbb ▸ hb
    · exact h.flag b' (by simpa [died, hbb] using hdied)
  uncalled := h.uncalled
  past b' n hdied := by
    by_cases hbb : b' = b
    · subst hbb
      have hn : s.loads b' = n := by simpa [died] using hdied
      exact Nat.le_of_eq hn.symm
    · exact h.past b' n (by simpa [died, hbb] using hdied)

/-- One careful step -/
theorem deadInv_step {e : Event ι} {s' : State ι} (h : DeadInv s) (hok : Careful c e s)
    (hstep : step c s e = some s') : DeadInv s' := by
  cases effect_of_step hstep with
  | calm hcalm => exact deadInv_of_calm h hcalm
  | call b call he hstarts hs' =>
    subst he hs'
    -- the wrapper is past its lazy init, or the caller has looked at the flag
    have hinit : s.initialized b = true := by
      rcases hok.called b call rfl with hlazy | hinit
      · simpa [startsInit, hlazy] using hstarts
      · exact hinit
    exact deadInv_of_calm h (calm_wrapperCall call hinit)
  | callback b falible _ hcalm => exact { deadInv_of_calm h hcalm with }
  | begun b w _ hs' =>
    subst hs'
    obtain ⟨hdied, hloads, hcalled⟩ := history_begun (c := c) (s := s) (b := b) (w := w)
    refine { flag := fun x hx => ?_, uncalled := ?_, past := ?_ }
    · rw [hdied] at hx
      by_contra hinit
      have hbefore := (initialized_begun.mp (by simpa using hinit)).2
      rw [h.flag x hx] at hbefore
      cases hbefore
    · rw [hcalled]
      exact h.uncalled
    · rw [hdied, hloads]
      exact h.past
  | loaded b w _ hpop hpush =>
    have hreloaded := deadInv_reloaded (b := b) (deadInv_of_calm h hpop)
    refine deadInv_of_calm ?_ hpush
    exact { flag := hreloaded.flag, uncalled := hreloaded.uncalled, past := hreloaded.past }
  | broken b hpop hcalm =>
    exact deadInv_of_calm (deadInv_reloaded (deadInv_of_calm h hpop)) hcalm
  | up b w _ hpop hcalm =>
    have hpopped := deadInv_of_calm h hpop
    refine deadInv_of_calm (deadInv_completed (deadInv_reloaded hpopped) ?_) hcalm
    exact fun n hn => Nat.lt_succ_of_le (hpopped.past b n hn)
  | completed b w load _ hcompletes hpop hcalm =>
    refine deadInv_of_calm (deadInv_completed (deadInv_of_calm h hpop) ?_) hcalm
    intro n hn
    rw [hpop.died] at hn
    exact hok.completes b load n hcompletes hn
  | died b hb hpop hcalm =>
    refine deadInv_of_calm (deadInv_died (deadInv_of_calm h hpop) ?_) hcalm
    rcases hb with hb | ⟨hinterprets, hfails⟩
    · exact hb
    · have hflag := hok.fails b hinterprets hfails
      by_contra hinit
      rw [hpop.initialized b (by simpa using hinit)] at hflag
      cases hflag

/-- In every run of careful steps, in each of the runtimes, a box that has failed in a falible
call is not marked initialized, and none of its exports is called, until it has been
initialized in full. -/
theorem dead_run (h : Run c (Careful c) s) : Dead s := by
  have hinv : DeadInv s := by
    refine h.invariant DeadInv ?_ fun e s s' h hok hstep => deadInv_step h hok hstep
    rintro s rfl
    refine { flag := fun b hdied => ?_, uncalled := fun _ => rfl, past := fun b n hdied => ?_ }
    · cases hdied
    · cases hdied
  exact hinv.toDead

/-- An abort in a falible call, with the MPU -/
theorem dead_neighbours : ∃ s : State Bool,
    after (neighbours .mpu) [.init true, .loaded 0 0, .boxReturn 0, .call true ⟨true, true⟩,
      .abort (-1)] .initial = some s ∧ s.died true = some 1 ∧ Dead s := by
  obtain ⟨s, hs, hdied⟩ : ∃ s, after (neighbours .mpu) [.init true, .loaded 0 0, .boxReturn 0,
      .call true ⟨true, true⟩, .abort (-1)] .initial = some s ∧ s.died true = some 1 :=
    ⟨_, rfl, rfl⟩
  refine ⟨s, hs, hdied, dead_run (run_after _ (.start rfl) ?_ hs)⟩
  have hmpu : ∀ b, ((neighbours .mpu).runtime b).interprets ≠ true := nofun
  refine ⟨⟨fun b h => absurd h (hmpu b), nofun, nofun⟩, ?_⟩
  rintro s ⟨⟩
  refine ⟨⟨fun b h => absurd h (hmpu b), nofun, nofun⟩, ?_⟩
  rintro s ⟨⟩
  refine ⟨⟨fun b h => absurd h (hmpu b), fun _ _ _ _ hdied => (by cases hdied), nofun⟩, ?_⟩
  rintro s ⟨⟩
  refine ⟨⟨fun b h => absurd h (hmpu b), nofun, ?_⟩, ?_⟩
  · rintro b call ⟨⟩
    exact .inr rfl
  rintro s ⟨⟩
  refine ⟨⟨fun b h => absurd h (hmpu b), ?_, nofun⟩, fun _ _ => trivial⟩
  rintro b load n ⟨h | h, -⟩
  · cases h
  · cases h

/-- A box run by wasm3 traps in a falible call. It stays marked, and is called again. -/
theorem not_dead_neighbours : ¬ ∀ s : State Bool,
    Run (neighbours .wasm3) (fun _ _ => True) s → Dead s := by
  intro h
  obtain ⟨s, hs, hdied, hinit, hcalled⟩ : ∃ s, after (neighbours .wasm3) [.init true,
      .loaded 0 0, .call true ⟨true, true⟩, .trap (-EFAULT), .call true ⟨true, true⟩]
      .initial = some s ∧ s.died true = some 1 ∧ s.initialized true = true ∧
      s.calledDead true = true := ⟨_, rfl, rfl, rfl, rfl⟩
  have hflag := (h s (run_after _ (.start rfl) (allowed_true ..) hs)).flag true
  rw [hdied, hinit] at hflag
  exact absurd (hflag rfl) (by decide)

end BentoLinker.Runtimes
