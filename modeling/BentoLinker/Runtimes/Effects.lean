import BentoLinker.Runtimes.Machine

/-!
# What a Step Does

Each step of the runtimes, by what it does to the flags, to the frames that wait for an
init or for a function of sys, and to the history.

- `Quiet`, `Calm`: flags are only cleared and frames only dropped
- `begun`, `completed`, `died`, `reloaded`: what else can happen to the state
- `Effect`, `effect_of_step`: a step does one of these, and is calm before and after

Invariants about inits and callbacks follow from `effect_of_step` without looking at the
glue again.
-/

namespace BentoLinker.Runtimes

variable {ι : Type} {c : Config ι} {s t u : State ι}

/-! ## Section 1: Calm glue -/

/-- No init begins or completes, and the failure of no box is noted. -/
structure Quiet (s s' : State ι) : Prop where
  initialized : ∀ b, s'.initialized b = true → s.initialized b = true
  inits : ∀ b w l, .init b w l ∈ s'.stack → .init b w l ∈ s.stack
  callbacks : ∀ b f n, .callback b f n ∈ s'.stack → .callback b f n ∈ s.stack
  overwrites : s'.overwrites = s.overwrites
  loads : s'.loads = s.loads
  died : s'.died = s.died

/-- And an export is only called if its box is marked initialized. -/
structure Calm (s s' : State ι) : Prop extends Quiet s s' where
  calledDead : ∀ b, s'.calledDead b = true →
    s.calledDead b = true ∨ s.initialized b = true ∧ (s.died b).isSome = true

theorem Quiet.trans (h₁ : Quiet s t) (h₂ : Quiet t u) : Quiet s u where
  initialized b h := h₁.initialized b (h₂.initialized b h)
  inits b w l h := h₁.inits b w l (h₂.inits b w l h)
  callbacks b f n h := h₁.callbacks b f n (h₂.callbacks b f n h)
  overwrites := h₂.overwrites.trans h₁.overwrites
  loads := h₂.loads.trans h₁.loads
  died := h₂.died.trans h₁.died

theorem Calm.trans (h₁ : Calm s t) (h₂ : Calm t u) : Calm s u where
  toQuiet := h₁.toQuiet.trans h₂.toQuiet
  calledDead b h := by
    rcases h₂.calledDead b h with h | ⟨hinit, hdied⟩
    · exact h₁.calledDead b h
    · rw [h₁.died] at hdied
      exact .inr ⟨h₁.initialized b hinit, hdied⟩

/-- Dropping frames, and changing what the invariants do not mention. -/
theorem Calm.drop {s' : State ι} (hstack : s'.stack ⊆ s.stack)
    (hinit : ∀ b, s'.initialized b = true → s.initialized b = true)
    (hoverwrites : s'.overwrites = s.overwrites) (hloads : s'.loads = s.loads)
    (hdied : s'.died = s.died) (hcalled : s'.calledDead = s.calledDead) : Calm s s' where
  initialized := hinit
  inits _ _ _ h := hstack h
  callbacks _ _ _ h := hstack h
  overwrites := hoverwrites
  loads := hloads
  died := hdied
  calledDead _ h := .inl (hcalled ▸ h)

theorem Calm.refl (s : State ι) : Calm s s :=
  .drop (List.Subset.refl _) (fun _ h => h) rfl rfl rfl rfl

theorem calm_stop (s : State ι) (how : Stop) : Calm s (s.stop how) :=
  .drop (List.Subset.refl _) (fun _ h => h) rfl rfl rfl rfl

variable [DecidableEq ι]

theorem initialized_clobber {b b' : ι} (h : (clobber b s).initialized b' = true) :
    b' ≠ b ∧ s.initialized b' = true := by
  by_cases hb : b' = b
  · subst hb
    simp [clobber] at h
  · simpa [clobber, hb] using h

theorem calm_clobber (b : ι) (s : State ι) : Calm s (clobber b s) :=
  .drop (List.Subset.refl _) (fun _ h => (initialized_clobber h).2) rfl rfl rfl rfl

/-- Pushing the frame of a call is calm. -/
theorem calm_enter (c : Config ι) (b : ι) (falible : Bool) (s : State ι) :
    Calm s (enter c b falible s) := by
  have hpush : ∀ jmpbuf err lr, Calm s
      { s with
        stack := .call b falible s.serial (s.jmpbuf b) :: s.stack
        serial := s.serial + 1
        jmpbuf := jmpbuf
        err := err
        lr := lr } := by
    intro jmpbuf err lr
    -- the new frame is neither an init nor a callback
    refine { Calm.refl s with inits := fun b' w l h => ?_, callbacks := fun b' f n h => ?_ }
    · simpa using h
    · simpa using h
  rw [enter]
  split
  · split <;> exact hpush ..
  · split <;> exact hpush ..
  · split
    · exact hpush ..
    · exact calm_stop ..
  · exact hpush ..
  · split <;> exact hpush ..

/-- Noting that an export of a dead box is called is quiet. -/
theorem quiet_wrapperCall (c : Config ι) (b : ι) (call : Call) (s : State ι) :
    Quiet s (wrapperCall c b call s) := by
  rw [wrapperCall]
  split
  · split
    · exact (Calm.refl s).toQuiet
    · exact (calm_stop ..).toQuiet
  · refine Quiet.trans ?_ (calm_enter ..).toQuiet
    exact { (Calm.refl s).toQuiet with }

theorem calm_wrapperCall {b : ι} (call : Call) (h : s.initialized b = true) :
    Calm s (wrapperCall c b call s) := by
  rw [wrapperCall]
  split
  · split
    · exact .refl s
    · exact calm_stop ..
  · refine Calm.trans ?_ (calm_enter ..)
    refine { Calm.refl s with calledDead := fun b' hb' => ?_ }
    by_cases hb : b' = b
    · subst hb
      have hor : s.calledDead b' = true ∨ (s.died b').isSome = true := by simpa using hb'
      exact hor.imp_right fun hdied => ⟨h, hdied⟩
    · exact .inl (by simpa [hb] using hb')

/-- An init that fails does not call anything. -/
theorem calm_initReturn {b : ι} {w : Option Call} {err : Int}
    (h : err = 0 → s.initialized b = true) : Calm s (initReturn c b w err s) := by
  cases w with
  | none => exact .refl s
  | some call =>
    rw [initReturn]
    split
    · split
      · exact .refl s
      · exact calm_stop ..
    · next hne => exact calm_wrapperCall call (h (not_not.mp hne))

/-! ## Section 2: What else can happen -/

/-- `__box_b_init` up to its load hook, for a box that is not initialized -/
def begun (c : Config ι) (b : ι) (wrapper : Option Call) (s : State ι) : State ι :=
  let s' := (c.roommates b).foldl (fun s r => clobber r s) s
  { s' with
    lr := if c.runtime b = .mpu then Function.update s.lr (some b) true else s.lr
    stack := .init b wrapper none :: s.stack
    overwrites := fun x => if x = b ∨ c.Shares x b then s.overwrites x + 1 else s.overwrites x }

/-- The flag is set, after the load of that number. -/
def completed (b : ι) (load : ℕ) (s : State ι) : State ι :=
  { s with
    initialized := Function.update s.initialized b true
    died := Function.update s.died b ((s.died b).filter fun n => load ≤ n) }

def died (b : ι) (s : State ι) : State ι :=
  { s with died := Function.update s.died b (some (s.loads b)) }

def reloaded (b : ι) (s : State ι) : State ι :=
  { s with loads := Function.update s.loads b (s.loads b + 1) }

theorem startInit_of_not {b : ι} {w : Option Call} (h : s.initialized b = false) :
    startInit c b w s = begun c b w s := by
  rw [startInit, if_neg (by simp [h])]
  rfl

/-- The clobbers of an init -/
theorem initialized_begun {b x : ι} {w : Option Call} :
    (begun c b w s).initialized x = true ↔ x ∉ c.roommates b ∧ s.initialized x = true := by
  have hfold : ∀ (l : List ι) (s : State ι),
      (l.foldl (fun s r => clobber r s) s).initialized x = true ↔
        x ∉ l ∧ s.initialized x = true := by
    intro l
    induction l with
    | nil => simp
    | cons r l ih =>
      intro s
      rw [List.foldl_cons, ih]
      by_cases hx : x = r <;> simp [clobber, hx]
  exact hfold _ s

theorem history_begun {b : ι} {w : Option Call} :
    (begun c b w s).died = s.died ∧ (begun c b w s).loads = s.loads ∧
      (begun c b w s).calledDead = s.calledDead := by
  have hfold : ∀ (l : List ι) (s : State ι),
      (l.foldl (fun s r => clobber r s) s).died = s.died ∧
        (l.foldl (fun s r => clobber r s) s).loads = s.loads ∧
        (l.foldl (fun s r => clobber r s) s).calledDead = s.calledDead := by
    intro l
    induction l with
    | nil => exact fun _ => ⟨rfl, rfl, rfl⟩
    | cons r l ih => exact fun s => ih (clobber r s)
  exact hfold _ s

theorem calm_initDone {b : ι} {w : Option Call} {load : ℕ} :
    Calm (completed b load s) (initDone c b w load s) :=
  calm_initReturn fun _ => by simp [completed]

/-- A wrapper that returns an error -/
theorem calm_returned {v : Int} (hv : v ≠ 0) : Calm s (returned c v s) := by
  rw [returned]
  split
  · next b w load rest hstack =>
    rw [if_pos hv]
    refine Calm.trans ?_ (calm_initReturn fun h => absurd h hv)
    refine .drop ?_ (fun _ h => h) rfl rfl rfl rfl
    rw [hstack]
    exact List.subset_cons_self ..
  · exact .refl s

/-! ## Section 3: Steps -/

/-- The box whose init the step begins -/
def startsInit (c : Config ι) (s : State ι) : Event ι → Option ι
  | .init b => if s.initialized b then none else some b
  | .call b _ => if c.lazy b && !s.initialized b then some b else none
  | _ => none

/-- The box fails in a falible call. -/
def Fails (e : Event ι) (s : State ι) (b : ι) : Prop :=
  (∃ err, e = .abort err ∨ e = .trap err) ∧
    ∃ jmpbuf pjmpbuf rest, s.stack = .call b true jmpbuf pjmpbuf :: rest

/-- The call of postinit, after the load of that number, returns 0. -/
def Completes (e : Event ι) (s : State ι) (b : ι) (load : ℕ) : Prop :=
  (e = .boxReturn 0 ∨ e = .abort 0) ∧ ∃ b' falible jmpbuf pjmpbuf wrapper rest,
    s.stack = .call b' falible jmpbuf pjmpbuf :: .init b wrapper (some load) :: rest

inductive Effect (c : Config ι) (e : Event ι) (s s' : State ι) : Prop where
  | calm : Calm s s' → Effect c e s s'
  | call (b : ι) (call : Call) : e = .call b call → startsInit c s e = none →
      s' = wrapperCall c b call s → Effect c e s s'
  | callback (b : ι) (falible : Bool) :
      s'.stack = .callback b falible (s.overwrites b) :: s.stack →
      Calm s { s' with stack := s.stack } → Effect c e s s'
  /-- an init begins -/
  | begun (b : ι) (w : Option Call) : startsInit c s e = some b → s' = begun c b w s →
      Effect c e s s'
  /-- the box is loaded, postinit is next -/
  | loaded (b : ι) (w : Option Call) {t : State ι} : .init b w none ∈ s.stack → Calm s t →
      Calm { reloaded b t with stack := .init b w (some (t.loads b + 1)) :: t.stack } s' →
      Effect c e s s'
  /-- the box is loaded, and its interpreter does not come up -/
  | broken (b : ι) {t : State ι} : Calm s t → Calm (reloaded b t) s' → Effect c e s s'
  /-- the box is loaded, and its interpreter comes up -/
  | up (b : ι) (w : Option Call) {t : State ι} : .init b w none ∈ s.stack → Calm s t →
      Calm (completed b (t.loads b + 1) (reloaded b t)) s' → Effect c e s s'
  /-- postinit succeeds -/
  | completed (b : ι) (w : Option Call) (load : ℕ) {t : State ι} :
      .init b w (some load) ∈ s.stack → Completes e s b load → Calm s t →
      Calm (completed b load t) s' → Effect c e s s'
  /-- the box fails -/
  | died (b : ι) {t : State ι} :
      t.initialized b = false ∨ (c.runtime b).interprets = true ∧ Fails e s b → Calm s t →
      Calm (died b t) s' → Effect c e s s'

section Glue

variable {e : Event ι}

/-- A wrapper returns to where it has been called. -/
theorem effect_returned {v : Int} (hcalm : Calm s t)
    (h : ∀ b w load rest, t.stack = .init b w (some load) :: rest → v = 0 →
      Completes e s b load) : Effect c e s (returned c v t) := by
  by_cases hv : v = 0
  · rw [returned]
    split
    · next b w load rest hstack =>
      rw [if_neg (by simp [hv])]
      have hmem : .init b w (some load) ∈ t.stack := by
        rw [hstack]
        exact List.mem_cons_self ..
      refine .completed b w load (hcalm.inits _ _ _ hmem) (h b w load rest hstack hv)
        (hcalm.trans ?_) calm_initDone
      refine .drop ?_ (fun _ h => h) rfl rfl rfl rfl
      rw [hstack]
      exact List.subset_cons_self ..
    · exact .calm hcalm
  · exact .calm (hcalm.trans (calm_returned hv))

theorem effect_failed {b : ι} {err : Int} (hcalm : Calm s t)
    (hdead : t.initialized b = false ∨ (c.runtime b).interprets = true ∧ Fails e s b)
    (h : ∀ b w load rest, t.stack = .init b w (some load) :: rest → err = 0 →
      Completes e s b load) : Effect c e s (failed c b err t) := by
  rw [failed]
  by_cases herr : err = 0
  · rw [if_pos herr]
    exact effect_returned hcalm h
  · rw [if_neg herr]
    exact .died b hdead hcalm (calm_returned herr)

theorem subset_of_unwind {b : ι} {j : ℕ} {p : Option ℕ} {l rest : List (Frame ι)}
    (h : unwind b j l = some (p, rest)) : rest ⊆ l := by
  induction l with
  | nil => cases h
  | cons f l ih =>
    cases f with
    | call b' falible j' p' =>
      rw [unwind] at h
      split at h
      · cases h
        exact List.subset_cons_self ..
      · exact List.subset_cons_of_subset _ (ih h)
    | init => exact List.subset_cons_of_subset _ (ih h)
    | callback => exact List.subset_cons_of_subset _ (ih h)

omit [DecidableEq ι] in
theorem subset_of_latestCallback {b : ι} {falible : Bool} {l rest : List (Frame ι)}
    (h : latestCallback l = some (b, falible, rest)) : rest ⊆ l := by
  induction l with
  | nil => cases h
  | cons f l ih =>
    cases f with
    | callback =>
      cases h
      exact List.subset_cons_self ..
    | init => exact List.subset_cons_of_subset _ (ih h)
    | call => exact List.subset_cons_of_subset _ (ih h)

theorem subset_of_latestCallbackOf {b : ι} {falible : Bool} {l rest : List (Frame ι)}
    (h : latestCallbackOf b l = some (falible, rest)) : rest ⊆ l := by
  induction l with
  | nil => cases h
  | cons f l ih =>
    cases f with
    | callback b' =>
      rw [latestCallbackOf] at h
      split at h
      · cases h
        exact List.subset_cons_self ..
      · exact List.subset_cons_of_subset _ (ih h)
    | init => exact List.subset_cons_of_subset _ (ih h)
    | call => exact List.subset_cons_of_subset _ (ih h)

theorem effect_abortJump {b : ι} {err : Int} : Effect c e s (abortJump c b err s) := by
  rw [abortJump]
  split
  · next j hj =>
    rw [longjmp]
    split
    · exact .calm ((calm_clobber b s).trans (calm_stop ..))
    · next p rest hunwind =>
      have hne : (if err = 0 then 1 else err) ≠ 0 := by split <;> simp_all
      refine effect_failed ?_ (.inl ?_) fun _ _ _ _ _ h => absurd h hne
      · refine (calm_clobber b s).trans ?_
        exact .drop (subset_of_unwind hunwind) (fun _ h => h) rfl rfl rfl rfl
      · simp [clobber]
  · exact .calm ((calm_clobber b s).trans (calm_stop ..))

/-- `t` is `s` without the call of the box that faults. -/
theorem effect_boxFault {b : ι} {falible : Bool} {err : Int} (hcalm : Calm s t)
    (h : ∀ b w load rest, t.stack = .init b w (some load) :: rest → err = 0 →
      Completes e s b load) : Effect c e s (boxFault c b falible err t) := by
  have hclobber : Calm s (clobber b t) := hcalm.trans (calm_clobber b t)
  rw [boxFault]
  split
  · exact .calm (hclobber.trans (calm_stop ..))
  · split
    · exact .calm (hclobber.trans (calm_stop ..))
    · refine effect_failed (hclobber.trans ?_) (.inl ?_) h
      · exact .drop (List.Subset.refl _) (fun _ h => h) rfl rfl rfl rfl
      · simp [clobber]

theorem calm_sysFault {err : Int} : Calm s (sysFault err s) := by
  rw [sysFault]
  split
  · exact calm_stop ..
  · next b falible rest hlatest =>
    split
    · exact calm_stop ..
    · split
      · exact calm_stop ..
      · exact .drop (subset_of_latestCallback hlatest) (fun _ h => h) rfl rfl rfl rfl

theorem effect_boxReturn {b : ι} {falible : Bool} {p : Option ℕ} {v : Int} (hcalm : Calm s t)
    (h : ∀ b w load rest, t.stack = .init b w (some load) :: rest → v = 0 →
      Completes e s b load) : Effect c e s (boxReturn c b falible p v t) := by
  -- what follows does not depend on jmp_bufs and lr
  have hset : ∀ jmpbuf lr, Calm s { t with jmpbuf := jmpbuf, lr := lr } := fun _ _ =>
    hcalm.trans (.drop (List.Subset.refl _) (fun _ h => h) rfl rfl rfl rfl)
  have hplain : Effect c e s (boxReturn c b falible p v t) ∨ c.runtime b = .mpu := by
    rw [boxReturn]
    split
    · left
      split
      · exact effect_returned (hset ..) h
      · exact effect_returned hcalm h
    · left
      split
      · exact effect_returned (hset ..) h
      · exact effect_returned hcalm h
    · right; assumption
    · exact .inl (effect_returned hcalm h)
    · exact .inl (effect_returned hcalm h)
  rcases hplain with hplain | hmpu
  · exact hplain
  · rw [boxReturn, hmpu]
    dsimp only
    split
    · exact effect_returned (hset ..) h
    · split
      · exact .calm ((hset _ _).trans (calm_stop ..))
      · next hlatest =>
        split
        · exact .calm ((hset _ _).trans (calm_stop ..))
        · refine .calm (hcalm.trans ?_)
          exact .drop (subset_of_latestCallbackOf hlatest) (fun _ h => h) rfl rfl rfl rfl

/-- `t` is `s` without the call of the box whose interpreter comes back early. -/
theorem effect_wasm3Trapped {b : ι} {falible : Bool} {tr : Trap} (hcalm : Calm s t)
    (hruntime : c.runtime b = .wasm3) (hfails : falible = true → Fails e s b)
    (h : ∀ b w load rest, t.stack = .init b w (some load) :: rest → tr = .exit 0 →
      Completes e s b load) (htrap : ∀ err, tr = .trap err → err ≠ 0) :
    Effect c e s (wasm3Trapped c b falible tr t) := by
  cases hfalible : falible with
  | false => exact .calm (hcalm.trans (calm_stop ..))
  | true =>
    have hdead : t.initialized b = false ∨ (c.runtime b).interprets = true ∧ Fails e s b :=
      .inr ⟨by rw [hruntime]; rfl, hfails hfalible⟩
    cases tr with
    | exit err =>
      refine effect_failed hcalm hdead fun b w load rest hs herr => ?_
      exact h b w load rest hs (by rw [herr])
    | trap err => exact effect_failed hcalm hdead fun _ _ _ _ _ herr => absurd herr (htrap err rfl)

theorem wamrError_ne_zero (err : Int) : (if err ≠ 0 then err else -EFAULT) ≠ 0 := by
  split
  · assumption
  · decide

theorem effect_wamrTrapped {b : ι} {falible : Bool} {tr : Trap} (hcalm : Calm s t)
    (hruntime : c.runtime b = .wamr) (hfails : falible = true → Fails e s b) :
    Effect c e s (wamrTrapped c b falible tr t) := by
  have hset : ∀ err, Calm s { t with err := err } := fun _ =>
    hcalm.trans (.drop (List.Subset.refl _) (fun _ h => h) rfl rfl rfl rfl)
  cases hfalible : falible with
  | false => exact .calm ((hset _).trans (calm_stop ..))
  | true =>
    refine effect_failed (hset _) (.inr ⟨by rw [hruntime]; rfl, hfails hfalible⟩) ?_
    exact fun _ _ _ _ _ herr => absurd herr (wamrError_ne_zero _)

/-- Sys returns to the box, which may be taken for a fault of the box. -/
theorem effect_callbackReturn {b : ι} {falible : Bool} {n : ℕ} {rest : List (Frame ι)}
    (hstack : s.stack = .callback b falible n :: rest) :
    Effect c e s (callbackReturn c b rest s) := by
  have hpop : ∀ lr, Calm s { s with stack := rest, lr := lr } := by
    refine fun _ => .drop ?_ (fun _ h => h) rfl rfl rfl rfl
    rw [hstack]
    exact List.subset_cons_self ..
  rw [callbackReturn]
  split
  · dsimp only
    split
    · exact .calm (hpop _)
    · split
      · next falible' _ _ rest' =>
        refine effect_boxFault ?_ fun _ _ _ _ _ herr => absurd herr (by decide)
        refine (hpop (Function.update s.lr none true)).trans ?_
        exact .drop (List.subset_cons_self ..) (fun _ h => h) rfl rfl rfl rfl
      · refine .calm (Calm.trans ?_ (calm_stop ..))
        exact .drop (List.Subset.refl _) (fun _ h => h) rfl rfl rfl rfl
  · exact .calm (hpop s.lr)

theorem effect_loaded {b : ι} {w : Option Call} {err res : Int} {rest : List (Frame ι)}
    (hstack : s.stack = .init b w none :: rest) :
    Effect c e s (loaded c b w err res { s with stack := rest }) := by
  have hmem : .init b w none ∈ s.stack := by
    rw [hstack]
    exact List.mem_cons_self ..
  have hpop : Calm s { s with stack := rest } := by
    refine .drop ?_ (fun _ h => h) rfl rfl rfl rfl
    rw [hstack]
    exact List.subset_cons_self ..
  rw [loaded]
  split
  · next herr => exact .calm (hpop.trans (calm_initReturn fun h => absurd h herr))
  · dsimp only
    split
    · split
      · next hres => exact .broken b hpop (calm_initReturn fun h => absurd h hres)
      · exact .up b w hmem hpop calm_initDone
    · exact .loaded b w hmem hpop (calm_enter ..)

end Glue

/-- A step that would begin an init does. -/
theorem begun_of_startsInit {e : Event ι} {s' : State ι} {b : ι}
    (hstarts : startsInit c s e = some b) (h : step c s e = some s') :
    ∃ w, s' = begun c b w s := by
  have hsys : ∀ s', sysStep c s e = some s' → ∃ w, s' = begun c b w s := by
    rintro s' h
    cases e with
    | init x =>
      cases h
      rw [startsInit] at hstarts
      split at hstarts
      · cases hstarts
      · next hnot =>
        cases hstarts
        exact ⟨none, startInit_of_not (by simpa using hnot)⟩
    | call x call =>
      rw [startsInit] at hstarts
      split at hstarts
      · next hlazy =>
        cases hstarts
        simp only [sysStep, if_pos hlazy] at h
        cases h
        exact ⟨some call, startInit_of_not (by simpa using (Bool.and_eq_true_iff.mp hlazy).2)⟩
      · cases hstarts
    | _ => cases hstarts
  rw [step] at h
  split at h
  · cases h
  · split at h
    · -- a box begins no init
      cases e with
      | init | call => cases h
      | _ => cases hstarts
    · cases h
    · exact hsys s' h

/-- What one step can do. -/
theorem effect_of_step {e : Event ι} {s' : State ι} (h : step c s e = some s') :
    Effect c e s s' := by
  rw [step] at h
  split at h
  · cases h
  · split at h
    · -- code of a box runs
      next b falible j p rest hstack =>
      have hpop : Calm s { s with stack := rest } := by
        refine .drop ?_ (fun _ h => h) rfl rfl rfl rfl
        rw [hstack]
        exact List.subset_cons_self ..
      have hcompletes : ∀ {e : Event ι}, e = .boxReturn 0 ∨ e = .abort 0 →
          ∀ b w load rest', rest = .init b w (some load) :: rest' → Completes e s b load :=
        fun he _ _ _ _ hrest => ⟨he, _, _, _, _, _, _, hrest ▸ hstack⟩
      have hfails : ∀ {e : Event ι}, (∃ err, e = .abort err ∨ e = .trap err) →
          falible = true → Fails e s b :=
        fun he hfalible => ⟨he, _, _, _, hfalible ▸ hstack⟩
      -- the events that code of a box can bring about
      cases e with
      | callback falible' =>
        cases h
        rw [callback]
        dsimp only
        split
        · split
          · refine .callback b falible' rfl ?_
            exact .drop (List.Subset.refl _) (fun _ h => h) rfl rfl rfl rfl
          · exact .calm (calm_stop ..)
        · exact .callback b falible' rfl (.refl s)
      | boxReturn v =>
        cases h
        refine effect_boxReturn hpop fun b' w load rest' hrest hv => ?_
        subst hv
        exact hcompletes (.inl rfl) b' w load rest' hrest
      | abort err =>
        simp only [boxStep] at h
        -- by the runtime, and what it does with an abort
        split at h <;> cases h
        · exact effect_abortJump
        · exact effect_abortJump
        · refine effect_boxFault hpop fun b' w load rest' hrest herr => ?_
          subst herr
          exact hcompletes (.inr rfl) b' w load rest' hrest
        · next hruntime =>
          refine effect_wasm3Trapped hpop hruntime (hfails ⟨err, .inl rfl⟩) ?_ (by simp)
          intro b' w load rest' hrest herr
          cases herr
          exact hcompletes (.inr rfl) b' w load rest' hrest
        · next hruntime => exact effect_wamrTrapped hpop hruntime (hfails ⟨err, .inl rfl⟩)
      | trap err =>
        simp only [boxStep] at h
        split at h
        · cases h
        · next herr =>
          split at h <;> cases h
          · next hruntime =>
            refine effect_wasm3Trapped hpop hruntime (hfails ⟨err, .inr rfl⟩) (by simp) ?_
            rintro _ ⟨⟩
            exact herr
          · next hruntime => exact effect_wamrTrapped hpop hruntime (hfails ⟨err, .inr rfl⟩)
      | fault =>
        simp only [boxStep] at h
        split at h
        · cases h
          exact effect_boxFault hpop fun _ _ _ _ _ herr => absurd herr (by decide)
        · cases h
      | init | clobber | call | loaded | callbackReturn => cases h
    · cases h
    · -- code of sys runs
      cases e with
      | init b =>
        cases h
        -- the init of a box that is up does nothing
        by_cases hb : s.initialized b = true
        · rw [startInit, if_pos hb]
          exact .calm (.refl s)
        · rw [Bool.not_eq_true] at hb
          exact .begun b none (by simp [startsInit, hb]) (startInit_of_not hb)
      | clobber b =>
        cases h
        exact .calm (calm_clobber b s)
      | call b call =>
        simp only [sysStep] at h
        split at h
        · next hlazy =>
          cases h
          refine .begun b (some call) (by simp [startsInit, hlazy]) (startInit_of_not ?_)
          simpa using (Bool.and_eq_true_iff.mp hlazy).2
        · next hlazy =>
          cases h
          exact .call b call rfl (by simp [startsInit, hlazy]) rfl
      | loaded err res =>
        simp only [sysStep] at h
        split at h
        · next hstack =>
          cases h
          exact effect_loaded hstack
        · cases h
      | callbackReturn =>
        simp only [sysStep] at h
        split at h
        · next b f n rest hstack =>
          cases h
          exact effect_callbackReturn hstack
        · cases h
      | fault =>
        simp only [sysStep] at h
        split at h
        · split at h
          · cases h
            exact .calm calm_sysFault
          · cases h
        · cases h
      | callback | boxReturn | abort | trap => cases h

end BentoLinker.Runtimes
