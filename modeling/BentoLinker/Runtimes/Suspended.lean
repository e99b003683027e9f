import BentoLinker.Runtimes.Effects

/-!
# Frames in the Memory of a Box

A box that calls sys leaves a frame behind, to which a return or a fault comes back.

- `Intact`: the memory of a suspended box has not been loaded over
- `Undisturbed`: no init begins over the memory of a suspended box
- `Resumes`: a step that goes back to a suspended frame of a box
- `intact_iff`: along runs of undisturbed steps, control returns to intact boxes only, and
  the condition on the next step is the exact one

An init does not look for frames: a function of sys that is called from a box can bring up
a roommate of the box, or the box again, without knowing, by calling a lazy export.
-/

namespace BentoLinker.Runtimes

variable {ι : Type} [DecidableEq ι] {c : Config ι} {s s' : State ι} {e : Event ι}

/-- The memory of each suspended box is as it was when it called sys. -/
def Intact (s : State ι) : Prop :=
  ∀ b falible n, .callback b falible n ∈ s.stack → n = s.overwrites b

/-- Code of the box waits for sys. -/
def Suspended (s : State ι) (b : ι) : Prop := ∃ falible n, .callback b falible n ∈ s.stack

/-- An init only begins while neither the box nor one that shares memory with it is
suspended. -/
def Undisturbed (c : Config ι) (e : Event ι) (s : State ι) : Prop :=
  ∀ x, startsInit c s e = some x → ∀ b, b = x ∨ c.Shares b x → ¬ Suspended s b

/-- The step goes back to a frame that `b` has left behind after `n` loads over its memory,
and drops what is above. -/
def Resumes (s s' : State ι) (b : ι) (n : ℕ) : Prop :=
  s'.stopped = none ∧ ∃ above falible, s.stack = above ++ .callback b falible n :: s'.stack

omit [DecidableEq ι] in
theorem intact_of_quiet {t : State ι} (hquiet : Quiet s t) (h : Intact s) : Intact t := by
  intro b falible n hmem
  rw [hquiet.overwrites]
  exact h b falible n (hquiet.callbacks b falible n hmem)

/-- The load of an init leaves the suspended frames intact, if none of them is in the memory
that is loaded. -/
theorem intact_begun_iff {b : ι} {w : Option Call} (h : Intact s) :
    Intact (begun c b w s) ↔ ∀ x, x = b ∨ c.Shares x b → ¬ Suspended s x := by
  have hstack : ∀ x falible n,
      .callback x falible n ∈ (begun c b w s).stack ↔ .callback x falible n ∈ s.stack := by
    simp [begun]
  constructor
  · rintro hintact x hx ⟨falible, n, hmem⟩
    have hafter := hintact x falible n ((hstack ..).mpr hmem)
    have hbefore := h x falible n hmem
    simp only [begun, if_pos hx] at hafter
    omega
  · intro hx x falible n hmem
    rw [hstack] at hmem
    have hnot : ¬ (x = b ∨ c.Shares x b) := fun hshares => hx x hshares ⟨falible, n, hmem⟩
    simp only [begun, if_neg hnot]
    exact h x falible n hmem

/-- A step that begins no init leaves the suspended frames intact. -/
theorem begun_or_intact (h : Intact s) (heffect : Effect c e s s') :
    (∃ b w, startsInit c s e = some b ∧ s' = begun c b w s) ∨ Intact s' := by
  cases heffect with
  | calm hcalm => exact .inr (intact_of_quiet hcalm.toQuiet h)
  | call b call _ _ hs' => exact .inr (hs' ▸ intact_of_quiet (quiet_wrapperCall ..) h)
  | callback b falible hstack hcalm =>
    right
    intro x falible' n hmem
    have hoverwrites : s'.overwrites = s.overwrites := hcalm.overwrites
    rw [hoverwrites]
    rw [hstack] at hmem
    rcases List.mem_cons.mp hmem with heq | hmem
    · cases heq
      rfl
    · exact h x falible' n hmem
  | begun b w hstarts hs' => exact .inl ⟨b, w, hstarts, hs'⟩
  | loaded b w _ hpop hpush =>
    right
    apply intact_of_quiet hpush.toQuiet
    have hpopped := intact_of_quiet hpop.toQuiet h
    exact fun x falible n hmem => hpopped x falible n (by simpa using hmem)
  | broken b hpop hcalm =>
    have hpopped := intact_of_quiet hpop.toQuiet h
    exact .inr (intact_of_quiet hcalm.toQuiet hpopped)
  | up b w _ hpop hcalm =>
    have hpopped := intact_of_quiet hpop.toQuiet h
    exact .inr (intact_of_quiet hcalm.toQuiet hpopped)
  | completed b w load _ _ hpop hcalm =>
    have hpopped := intact_of_quiet hpop.toQuiet h
    exact .inr (intact_of_quiet hcalm.toQuiet hpopped)
  | died b _ hpop hcalm =>
    have hpopped := intact_of_quiet hpop.toQuiet h
    exact .inr (intact_of_quiet hcalm.toQuiet hpopped)

theorem intact_step_iff (h : Intact s) (hstep : step c s e = some s') :
    Intact s' ↔ Undisturbed c e s := by
  cases hstarts : startsInit c s e with
  | some x =>
    obtain ⟨w, rfl⟩ := begun_of_startsInit hstarts hstep
    rw [intact_begun_iff h, Undisturbed, hstarts]
    exact ⟨fun hx y hy => Option.some.inj hy ▸ hx, fun hx => hx x rfl⟩
  | none =>
    rcases begun_or_intact h (effect_of_step hstep) with ⟨b, w, hb, -⟩ | hintact
    · rw [hstarts] at hb
      cases hb
    · exact iff_of_true hintact fun x hx => by rw [hstarts] at hx; cases hx

theorem intact_run (h : Run c (Undisturbed c) s) : Intact s := by
  refine h.invariant Intact ?_ fun e s s' hintact hok hstep => ?_
  · rintro s rfl b falible n hmem
    cases hmem
  · exact (intact_step_iff hintact hstep).mpr hok

/-- In a run in which no init begins over a suspended box, returns and faults go back to
intact boxes only; a further step leaves all suspended boxes intact if and only if it meets
the condition too. -/
theorem intact_iff (hrun : Run c (Undisturbed c) s) (hstep : step c s e = some s') :
    (∀ b n, Resumes s s' b n → n = s.overwrites b) ∧ (Intact s' ↔ Undisturbed c e s) := by
  have hintact := intact_run hrun
  refine ⟨?_, intact_step_iff hintact hstep⟩
  rintro b n ⟨-, above, falible, hstack⟩
  refine hintact b falible n ?_
  rw [hstack]
  exact List.mem_append_right _ (List.mem_cons_self ..)

/-- A box calls sys, and the function of sys faults. -/
theorem intact_iff_hosts : ∃ s s' : State Bool,
    after (hosts .mpu) [.init true, .loaded 0 0, .boxReturn 0, .call true ⟨true, true⟩,
      .callback true] .initial = some s ∧ step (hosts .mpu) s .fault = some s' ∧
    Resumes s s' true 1 ∧ (∀ b n, Resumes s s' b n → n = s.overwrites b) ∧
    (Intact s' ↔ Undisturbed (hosts .mpu) .fault s) := by
  obtain ⟨s, s', hs, hs', hresumes⟩ : ∃ s s', after (hosts .mpu) [.init true, .loaded 0 0,
      .boxReturn 0, .call true ⟨true, true⟩, .callback true] .initial = some s ∧
      step (hosts .mpu) s .fault = some s' ∧ Resumes s s' true 1 :=
    ⟨_, _, rfl, rfl, rfl, [], true, rfl⟩
  refine ⟨s, s', hs, hs', hresumes, intact_iff (run_after _ (.start rfl) ?_ hs) hs'⟩
  -- only the first step begins an init, and nothing is suspended then
  refine ⟨?_, ?_⟩
  · rintro x - b - ⟨falible, n, hmem⟩
    cases hmem
  · rintro s ⟨⟩
    refine ⟨nofun, ?_⟩
    rintro s ⟨⟩
    refine ⟨nofun, ?_⟩
    rintro s ⟨⟩
    refine ⟨nofun, ?_⟩
    rintro s ⟨⟩
    exact ⟨nofun, fun _ _ => trivial⟩

/-- A function of sys that a box has called calls an export of its roommate, whose wrapper
loads the roommate over the box. The function then returns to the box. -/
theorem not_intact_hosts : ¬ ∀ (s s' : State Bool) (e : Event Bool),
    Run (hosts .jumptable) (fun _ _ => True) s → step (hosts .jumptable) s e = some s' →
    ∀ b n, Resumes s s' b n → n = s.overwrites b := by
  intro h
  obtain ⟨s, s', hs, hs', hresumes, htwice⟩ : ∃ s s', after (hosts .jumptable)
      [.init true, .loaded 0 0, .boxReturn 0, .call true ⟨false, true⟩, .callback false,
        .call false ⟨false, true⟩, .loaded 0 0, .boxReturn 0, .boxReturn 5] .initial = some s ∧
      step (hosts .jumptable) s .callbackReturn = some s' ∧ Resumes s s' true 1 ∧
      s.overwrites true = 2 := ⟨_, _, rfl, rfl, ⟨rfl, [], false, rfl⟩, rfl⟩
  have hrun := run_after _ (.start rfl) (allowed_true ..) hs
  have hone := h s s' .callbackReturn hrun hs' true 1 hresumes
  omega

end BentoLinker.Runtimes
