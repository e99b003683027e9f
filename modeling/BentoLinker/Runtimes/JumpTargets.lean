import BentoLinker.Runtimes.Machine

/-!
# Targets of Aborts

Where `__box_X_jmpbuf` points to.

- `innermost`: the `jmp_buf` of the innermost falible wrapper of a box
- `Saved`: each wrapper has saved the one of the next wrapper of its box further out
- `Targets`: the pointers of all boxes are where they should be
- `Contained`: an abort leaves no falible wrapper of another box
- `targets_run`: in runs of contained aborts, pointers are to wrappers on the stack

A wrapper restores the pointer of its own box, when the box returns or aborts. A `longjmp`
past it leaves the pointer where it is.
-/

namespace BentoLinker.Runtimes

variable {ι : Type} [DecidableEq ι] {c : Config ι} {s : State ι}

/-! ## Section 1: Saved pointers -/

/-- The `jmp_buf` of the innermost falible wrapper of the box -/
def innermost (b : ι) : List (Frame ι) → Option ℕ
  | [] => none
  | .call b' falible j _ :: rest => if falible ∧ b' = b then some j else innermost b rest
  | _ :: rest => innermost b rest

/-- A wrapper has saved the pointer to the next one of its box further out, and later
wrappers have later `jmp_buf`s. -/
def Saved (c : Config ι) : ℕ → List (Frame ι) → Prop
  | _, [] => True
  | n, .call b _ j pjmpbuf :: rest =>
    j < n ∧ ((c.runtime b).longjmps = true → pjmpbuf = innermost b rest) ∧ Saved c j rest
  | n, _ :: rest => Saved c n rest

/-- The pointers of all boxes that recover by `longjmp` are to their innermost wrappers. -/
structure Targets (c : Config ι) (s : State ι) : Prop where
  saved : Saved c s.serial s.stack
  live : ∀ b, (c.runtime b).longjmps = true → s.jmpbuf b = innermost b s.stack

theorem Saved.mono {n m : ℕ} {l : List (Frame ι)} (h : Saved c n l) (hle : n ≤ m) :
    Saved c m l := by
  induction l with
  | nil => trivial
  | cons f l ih =>
    cases f with
    | call b f j p => exact ⟨Nat.lt_of_lt_of_le h.1 hle, h.2⟩
    | init => exact ih h
    | callback => exact ih h

/-- The target of a jump, and what the wrapper there has saved -/
theorem innermost_of_unwind {b : ι} {j n : ℕ} {p : Option ℕ} {l rest : List (Frame ι)}
    (hsaved : Saved c n l) (hb : (c.runtime b).longjmps = true)
    (h : unwind b j l = some (p, rest)) : p = innermost b rest ∧ Saved c n rest := by
  induction l generalizing n with
  | nil => cases h
  | cons f l ih =>
    cases f with
    | call b' f' j' p' =>
      obtain ⟨hj, hp, hl⟩ := hsaved
      rw [unwind] at h
      split at h
      · next heq =>
        cases h
        obtain ⟨rfl, rfl⟩ := heq
        exact ⟨hp hb, hl.mono (Nat.le_of_lt hj)⟩
      · exact (ih hl h).imp_right fun hrest => hrest.mono (Nat.le_of_lt hj)
    | init => exact ih hsaved h
    | callback => exact ih hsaved h

/-- A pointer to the innermost wrapper has a frame to go to. -/
theorem unwind_of_innermost {b : ι} {j : ℕ} {l : List (Frame ι)}
    (h : innermost b l = some j) : (unwind b j l).isSome = true := by
  induction l with
  | nil => cases h
  | cons f l ih =>
    cases f with
    | call b' f' j' p' =>
      rw [innermost] at h
      rw [unwind]
      split at h
      · next hb =>
        cases h
        rw [if_pos ⟨hb.2, rfl⟩]
        rfl
      · split
        · rfl
        · exact ih h
    | init => exact ih h
    | callback => exact ih h

/-! ## Section 2: The glue -/

/-- What does not touch pointers and wrappers -/
theorem Targets.congr {s' : State ι} (h : Targets c s) (hserial : s'.serial = s.serial)
    (hjmpbuf : s'.jmpbuf = s.jmpbuf) (hstack : s'.stack = s.stack) : Targets c s' where
  saved := by rw [hserial, hstack]; exact h.saved
  live b hb := by rw [hjmpbuf, hstack]; exact h.live b hb

theorem targets_enter {b : ι} {falible : Bool} (h : Targets c s) :
    Targets c (enter c b falible s) := by
  have hframe : Saved c (s.serial + 1) (.call b falible s.serial (s.jmpbuf b) :: s.stack) :=
    ⟨Nat.lt_succ_self _, h.live b, h.saved⟩
  -- only a wrapper of a longjmp runtime becomes the innermost one of its box
  have hother : (c.runtime b).longjmps = false ∨ falible = false →
      ∀ b', (c.runtime b').longjmps = true →
        s.jmpbuf b' = innermost b' (.call b falible s.serial (s.jmpbuf b) :: s.stack) := by
    intro hb b' hb'
    rw [innermost, if_neg]
    · exact h.live b' hb'
    · rintro ⟨hfalible, rfl⟩
      rcases hb with hb | hb
      · rw [hb] at hb'; cases hb'
      · rw [hb] at hfalible; cases hfalible
  have hself : ∀ b', (c.runtime b').longjmps = true →
      Function.update s.jmpbuf b (some s.serial) b' =
        innermost b' (.call b true s.serial (s.jmpbuf b) :: s.stack) := by
    intro b' hb'
    rw [innermost]
    by_cases hbb : b' = b
    · subst hbb
      rw [Function.update_self, if_pos ⟨rfl, rfl⟩]
    · rw [Function.update_of_ne hbb, if_neg fun hand => hbb hand.2.symm]
      exact h.live b' hb'
  rw [enter]
  split
  · split
    · next hfalible =>
      subst hfalible
      exact ⟨hframe, hself⟩
    · next hfalible => exact ⟨hframe, hother (.inr (by simpa using hfalible))⟩
  · split
    · next hfalible =>
      subst hfalible
      exact ⟨hframe, hself⟩
    · next hfalible => exact ⟨hframe, hother (.inr (by simpa using hfalible))⟩
  · next hb =>
    split
    · exact ⟨hframe, hother (.inl (by rw [hb]; rfl))⟩
    · exact h.congr rfl rfl rfl
  · next hb => exact ⟨hframe, hother (.inl (by rw [hb]; rfl))⟩
  · next hb =>
    split <;> exact ⟨hframe, hother (.inl (by rw [hb]; rfl))⟩

theorem targets_wrapperCall {b : ι} {call : Call} (h : Targets c s) :
    Targets c (wrapperCall c b call s) := by
  rw [wrapperCall]
  split
  · split
    · exact h
    · exact h.congr rfl rfl rfl
  · exact targets_enter (h.congr rfl rfl rfl)

theorem targets_initReturn {b : ι} {w : Option Call} {err : Int} (h : Targets c s) :
    Targets c (initReturn c b w err s) := by
  cases w with
  | none => exact h
  | some call =>
    rw [initReturn]
    split
    · split
      · exact h
      · exact h.congr rfl rfl rfl
    · exact targets_wrapperCall h

theorem clobbers_eq {r : List ι} :
    (r.foldl (fun s r => clobber r s) s).serial = s.serial ∧
      (r.foldl (fun s r => clobber r s) s).jmpbuf = s.jmpbuf := by
  induction r generalizing s with
  | nil => exact ⟨rfl, rfl⟩
  | cons x r ih => exact ih

theorem targets_startInit {b : ι} {w : Option Call} (h : Targets c s) :
    Targets c (startInit c b w s) := by
  rw [startInit]
  split
  · exact targets_initReturn h
  · obtain ⟨hserial, hjmpbuf⟩ := clobbers_eq (s := s) (r := c.roommates b)
    refine ⟨?_, fun b' hb' => ?_⟩
    · dsimp only
      rw [hserial]
      exact h.saved
    · dsimp only
      rw [hjmpbuf]
      exact h.live b' hb'

theorem targets_initDone {b : ι} {w : Option Call} {load : ℕ} (h : Targets c s) :
    Targets c (initDone c b w load s) :=
  targets_initReturn (h.congr rfl rfl rfl)

theorem targets_returned {v : Int} (h : Targets c s) : Targets c (returned c v s) := by
  rw [returned]
  split
  · next b w load rest hstack =>
    have hpop : Targets c { s with stack := rest } := by
      obtain ⟨hsaved, hlive⟩ := h
      rw [hstack] at hsaved hlive
      exact ⟨hsaved, hlive⟩
    split
    · exact targets_initReturn hpop
    · exact targets_initDone hpop
  · exact h

theorem targets_failed {b : ι} {err : Int} (h : Targets c s) : Targets c (failed c b err s) :=
  targets_returned (h.congr rfl rfl rfl)

theorem targets_loaded {b : ι} {w : Option Call} {err res : Int} (h : Targets c s) :
    Targets c (loaded c b w err res s) := by
  rw [loaded]
  split
  · exact targets_initReturn h
  · dsimp only
    split
    · split
      · exact targets_initReturn (h.congr rfl rfl rfl)
      · exact targets_initDone (h.congr rfl rfl rfl)
    · exact targets_enter ⟨h.saved, h.live⟩

/-- A wrapper that has not set the pointer is left. -/
theorem targets_leave {b : ι} {falible : Bool} {j : ℕ} {p : Option ℕ} {rest : List (Frame ι)}
    (h : Targets c s) (hstack : s.stack = .call b falible j p :: rest)
    (hb : (c.runtime b).longjmps = false ∨ falible = false) :
    Targets c { s with stack := rest } := by
  obtain ⟨hsaved, hlive⟩ := h
  rw [hstack] at hsaved hlive
  refine ⟨hsaved.2.2.mono (Nat.le_of_lt hsaved.1), fun b' hb' => ?_⟩
  have hnot : ¬ (falible = true ∧ b = b') := by
    rintro ⟨rfl, rfl⟩
    rcases hb with hb | hb
    · rw [hb] at hb'; cases hb'
    · cases hb
  have hinnermost := hlive b' hb'
  rwa [innermost, if_neg hnot] at hinnermost

/-- A wrapper that has set the pointer sets it back. -/
theorem targets_restore {b : ι} {j : ℕ} {p : Option ℕ} {rest : List (Frame ι)}
    (h : Targets c s) (hstack : s.stack = .call b true j p :: rest)
    (hb : (c.runtime b).longjmps = true) :
    Targets c { s with stack := rest, jmpbuf := Function.update s.jmpbuf b p } := by
  obtain ⟨hsaved, hlive⟩ := h
  rw [hstack] at hsaved hlive
  refine ⟨hsaved.2.2.mono (Nat.le_of_lt hsaved.1), fun b' hb' => ?_⟩
  by_cases hbb : b' = b
  · subst hbb
    exact (Function.update_self ..).trans (hsaved.2.1 hb)
  · have hinnermost := hlive b' hb'
    rw [innermost, if_neg fun hand => hbb hand.2.symm] at hinnermost
    exact (Function.update_of_ne hbb ..).trans hinnermost

/-! ## Section 3: Jumps -/

/-- The frames that a `longjmp` drops on its way to the wrapper of `b` -/
def passed (b : ι) (j : ℕ) : List (Frame ι) → List (Frame ι)
  | [] => []
  | .call b' falible j' p :: rest =>
    if b' = b ∧ j' = j then [] else .call b' falible j' p :: passed b j rest
  | f :: rest => f :: passed b j rest

/-- An abort of a box that jumps passes no falible wrapper of another box that does. -/
def Contained (c : Config ι) (e : Event ι) (s : State ι) : Prop :=
  ∀ err b falible k p rest j, e = .abort err → s.stack = .call b falible k p :: rest →
    s.jmpbuf b = some j → ∀ b' k' p', .call b' true k' p' ∈ passed b j s.stack →
    (c.runtime b').longjmps = true → b' = b

/-- The innermost wrappers of the other boxes are still there. -/
theorem innermost_of_passed {b b' : ι} {j : ℕ} {p : Option ℕ} {l rest : List (Frame ι)}
    (h : unwind b j l = some (p, rest)) (hne : b' ≠ b)
    (hpassed : ∀ k p', .call b' true k p' ∉ passed b j l) :
    innermost b' l = innermost b' rest := by
  induction l with
  | nil => cases h
  | cons f l ih =>
    cases f with
    | call b₁ f₁ j₁ p₁ =>
      rw [unwind] at h
      rw [passed] at hpassed
      rw [innermost]
      split at h
      · next heq =>
        cases h
        rw [if_neg fun hand => hne (hand.2.symm.trans heq.1)]
      · next heq =>
        rw [if_neg heq] at hpassed
        rw [if_neg]
        · exact ih h fun k p' hmem => hpassed k p' (List.mem_cons_of_mem _ hmem)
        · rintro ⟨hfalible, rfl⟩
          subst hfalible
          exact hpassed j₁ p₁ (List.mem_cons_self ..)
    | init =>
      exact ih h fun k p' hmem => hpassed k p' (List.mem_cons_of_mem _ hmem)
    | callback =>
      exact ih h fun k p' hmem => hpassed k p' (List.mem_cons_of_mem _ hmem)

theorem targets_abortJump {b : ι} {err : Int} (h : Targets c s)
    (hb : (c.runtime b).longjmps = true)
    (hpassed : ∀ j, s.jmpbuf b = some j → ∀ b' k p, .call b' true k p ∈ passed b j s.stack →
      (c.runtime b').longjmps = true → b' = b) : Targets c (abortJump c b err s) := by
  rw [abortJump]
  split
  · next j hj =>
    rw [longjmp]
    split
    · exact h.congr rfl rfl rfl
    · next p rest hunwind =>
      obtain ⟨hp, hsaved⟩ := innermost_of_unwind h.saved hb hunwind
      refine targets_failed ⟨hsaved, fun b' hb' => ?_⟩
      by_cases hbb : b' = b
      · subst hbb
        exact (Function.update_self ..).trans hp
      · refine (Function.update_of_ne hbb ..).trans ((h.live b' hb').trans ?_)
        apply innermost_of_passed hunwind hbb
        exact fun k p' hmem => hbb (hpassed j hj b' k p' hmem hb')
  · exact h.congr rfl rfl rfl

/-! ## Section 4: Faults, callbacks and returns -/

omit [DecidableEq ι] in
/-- With the MPU runtime there are no pointers. -/
theorem Config.not_longjmps {b : ι} (hb : c.runtime b = .mpu) (b' : ι) :
    (c.runtime b').longjmps = false := by
  rcases c.unmixed with hall | hnone
  · rw [hall b']; rfl
  · exact absurd hb (hnone b)

theorem targets_of_mpu {b : ι} (hb : c.runtime b = .mpu) (h : Saved c s.serial s.stack) :
    Targets c s where
  saved := h
  live b' hb' := by rw [Config.not_longjmps hb b'] at hb'; cases hb'

theorem saved_of_latestCallback {b : ι} {falible : Bool} {n : ℕ} {l rest : List (Frame ι)}
    (hsaved : Saved c n l) (h : latestCallback l = some (b, falible, rest)) : Saved c n rest := by
  induction l generalizing n with
  | nil => cases h
  | cons f l ih =>
    cases f with
    | call => exact (ih hsaved.2.2 h).mono (Nat.le_of_lt hsaved.1)
    | init => exact ih hsaved h
    | callback =>
      cases h
      exact hsaved

theorem saved_of_latestCallbackOf {b : ι} {falible : Bool} {n : ℕ} {l rest : List (Frame ι)}
    (hsaved : Saved c n l) (h : latestCallbackOf b l = some (falible, rest)) :
    Saved c n rest := by
  induction l generalizing n with
  | nil => cases h
  | cons f l ih =>
    cases f with
    | call => exact (ih hsaved.2.2 h).mono (Nat.le_of_lt hsaved.1)
    | init => exact ih hsaved h
    | callback =>
      rw [latestCallbackOf] at h
      split at h
      · cases h
        exact hsaved
      · exact ih hsaved h

theorem targets_boxFault {b : ι} {falible : Bool} {err : Int} (h : Targets c s) :
    Targets c (boxFault c b falible err s) := by
  rw [boxFault]
  split
  · exact h.congr rfl rfl rfl
  · split
    · exact h.congr rfl rfl rfl
    · exact targets_failed (h.congr rfl rfl rfl)

theorem targets_sysFault {b : ι} {err : Int} (hb : c.runtime b = .mpu) (h : Targets c s) :
    Targets c (sysFault err s) := by
  apply targets_of_mpu hb
  rw [sysFault]
  split
  · exact h.saved
  · next hlatest =>
    split
    · exact h.saved
    · split
      · exact h.saved
      · exact saved_of_latestCallback h.saved hlatest

theorem targets_wasm3Trapped {b : ι} {falible : Bool} {t : Trap} (h : Targets c s) :
    Targets c (wasm3Trapped c b falible t s) := by
  cases falible with
  | false => exact h.congr rfl rfl rfl
  | true => cases t <;> exact targets_failed h

theorem targets_wamrTrapped {b : ι} {falible : Bool} {t : Trap} (h : Targets c s) :
    Targets c (wamrTrapped c b falible t s) := by
  cases falible with
  | false => exact h.congr rfl rfl rfl
  | true => exact targets_failed (h.congr rfl rfl rfl)

theorem targets_boxReturn {b : ι} {falible : Bool} {j : ℕ} {p : Option ℕ} {v : Int}
    {rest : List (Frame ι)} (h : Targets c s) (hstack : s.stack = .call b falible j p :: rest) :
    Targets c (boxReturn c b falible p v { s with stack := rest }) := by
  have hlongjmps : (c.runtime b).longjmps = true → Targets c
      (if falible then
        returned c v { s with stack := rest, jmpbuf := Function.update s.jmpbuf b p }
      else returned c v { s with stack := rest }) := by
    intro hb
    cases falible with
    | true => exact targets_returned (targets_restore h hstack hb)
    | false => exact targets_returned (targets_leave h hstack (.inr rfl))
  have hleave : (c.runtime b).longjmps = false → Targets c { s with stack := rest } :=
    fun hb => targets_leave h hstack (.inl hb)
  rw [boxReturn]
  split
  · next hb => exact hlongjmps (by rw [hb]; rfl)
  · next hb => exact hlongjmps (by rw [hb]; rfl)
  · next hb =>
    have hleft := hleave (by rw [hb]; rfl)
    dsimp only
    split
    · exact targets_returned (hleft.congr rfl rfl rfl)
    · apply targets_of_mpu hb
      split
      · exact hleft.saved
      · next hlatest =>
        split
        · exact hleft.saved
        · exact saved_of_latestCallbackOf hleft.saved hlatest
  · next hb => exact targets_returned (hleave (by rw [hb]; rfl))
  · next hb => exact targets_returned (hleave (by rw [hb]; rfl))

theorem targets_callback {b : ι} {falible : Bool} (h : Targets c s) :
    Targets c (callback c b falible s) := by
  rw [callback]
  dsimp only
  split
  · split
    · exact ⟨h.saved, h.live⟩
    · exact h.congr rfl rfl rfl
  · exact ⟨h.saved, h.live⟩

theorem targets_callbackReturn {b : ι} {falible : Bool} {n : ℕ} {rest : List (Frame ι)}
    (h : Targets c s) (hstack : s.stack = .callback b falible n :: rest) :
    Targets c (callbackReturn c b rest s) := by
  have hpop : Targets c { s with stack := rest } := by
    obtain ⟨hsaved, hlive⟩ := h
    rw [hstack] at hsaved hlive
    exact ⟨hsaved, hlive⟩
  rw [callbackReturn]
  split
  · next hb =>
    dsimp only
    split
    · exact hpop.congr rfl rfl rfl
    · split
      · next b' f' j' p' rest' =>
        refine targets_boxFault (targets_of_mpu hb ?_)
        exact hpop.saved.2.2.mono (Nat.le_of_lt hpop.saved.1)
      · exact targets_of_mpu hb h.saved
  · exact hpop

/-! ## Section 5: Runs -/

theorem targets_boxStep {b : ι} {falible : Bool} {j : ℕ} {p : Option ℕ} {rest : List (Frame ι)}
    {e : Event ι} {s' : State ι} (h : Targets c s) (hok : Contained c e s)
    (hstack : s.stack = .call b falible j p :: rest)
    (hstep : boxStep c b falible p rest s e = some s') : Targets c s' := by
  have hleave : (c.runtime b).longjmps = false → Targets c { s with stack := rest } :=
    fun hb => targets_leave h hstack (.inl hb)
  cases e with
  | callback falible' =>
    cases hstep
    exact targets_callback h
  | boxReturn v =>
    cases hstep
    exact targets_boxReturn h hstack
  | abort err =>
    have hpassed := fun j' hj' => hok err b falible j p rest j' rfl hstack hj'
    simp only [boxStep] at hstep
    split at hstep <;> cases hstep
    · next hb => exact targets_abortJump h (by rw [hb]; rfl) hpassed
    · next hb => exact targets_abortJump h (by rw [hb]; rfl) hpassed
    · next hb => exact targets_boxFault (hleave (by rw [hb]; rfl))
    · next hb => exact targets_wasm3Trapped (hleave (by rw [hb]; rfl))
    · next hb => exact targets_wamrTrapped (hleave (by rw [hb]; rfl))
  | trap err =>
    simp only [boxStep] at hstep
    split at hstep
    · cases hstep
    · split at hstep <;> cases hstep
      · next hb => exact targets_wasm3Trapped (hleave (by rw [hb]; rfl))
      · next hb => exact targets_wamrTrapped (hleave (by rw [hb]; rfl))
  | fault =>
    simp only [boxStep] at hstep
    split at hstep <;> cases hstep
    next hb => exact targets_boxFault (hleave (by rw [hb]; rfl))
  | init | clobber | call | loaded | callbackReturn => cases hstep

theorem targets_sysStep {e : Event ι} {s' : State ι} (h : Targets c s)
    (hstep : sysStep c s e = some s') : Targets c s' := by
  cases e with
  | init b =>
    cases hstep
    exact targets_startInit h
  | clobber b =>
    cases hstep
    exact h.congr rfl rfl rfl
  | call b call =>
    simp only [sysStep] at hstep
    split at hstep <;> cases hstep
    · exact targets_startInit h
    · exact targets_wrapperCall h
  | loaded err res =>
    simp only [sysStep] at hstep
    split at hstep <;> cases hstep
    next hstack =>
    apply targets_loaded
    obtain ⟨hsaved, hlive⟩ := h
    rw [hstack] at hsaved hlive
    exact ⟨hsaved, hlive⟩
  | callbackReturn =>
    simp only [sysStep] at hstep
    split at hstep <;> cases hstep
    next hstack => exact targets_callbackReturn h hstack
  | fault =>
    simp only [sysStep] at hstep
    split at hstep
    · split at hstep <;> cases hstep
      next hb => exact targets_sysFault hb h
    · cases hstep
  | callback | boxReturn | abort | trap => cases hstep

theorem targets_step {e : Event ι} {s' : State ι} (h : Targets c s) (hok : Contained c e s)
    (hstep : step c s e = some s') : Targets c s' := by
  rw [step] at hstep
  split at hstep
  · cases hstep
  · split at hstep
    · next hstack => exact targets_boxStep h hok hstack hstep
    · cases hstep
    · exact targets_sysStep h hstep

/-- In every run whose aborts pass no falible wrapper of another box, the pointer of a box is
to its innermost falible wrapper on the stack, or null if there is none. -/
theorem targets_run (hrun : Run c (Contained c) s) {b : ι}
    (hb : (c.runtime b).longjmps = true) :
    s.jmpbuf b = innermost b s.stack ∧
      ∀ j, s.jmpbuf b = some j → (unwind b j s.stack).isSome = true := by
  have htargets : Targets c s := by
    refine hrun.invariant (Targets c) ?_ fun e s s' h hok hstep => targets_step h hok hstep
    rintro s rfl
    exact ⟨trivial, fun _ _ => rfl⟩
  have hlive := htargets.live b hb
  refine ⟨hlive, fun j hj => unwind_of_innermost ?_⟩
  rw [← hlive, hj]

/-- A box is called from its own callback, and aborts there. -/
theorem targets_neighbours : ∃ s : State Bool,
    after (neighbours .jumptable) [.init true, .loaded 0 0, .boxReturn 0,
      .call true ⟨true, true⟩, .callback false, .call true ⟨true, true⟩, .abort (-1)]
      .initial = some s ∧
    s.jmpbuf true = some 1 ∧ s.jmpbuf true = innermost true s.stack ∧
    ∀ j, s.jmpbuf true = some j → (unwind true j s.stack).isSome = true := by
  obtain ⟨s, hs, hj⟩ : ∃ s, after (neighbours .jumptable) [.init true, .loaded 0 0,
      .boxReturn 0, .call true ⟨true, true⟩, .callback false, .call true ⟨true, true⟩,
      .abort (-1)] .initial = some s ∧ s.jmpbuf true = some 1 := ⟨_, rfl, rfl⟩
  refine ⟨s, hs, hj, targets_run (run_after _ (.start rfl) ?_ hs) rfl⟩
  refine ⟨nofun, ?_⟩
  rintro s ⟨⟩
  refine ⟨nofun, ?_⟩
  rintro s ⟨⟩
  refine ⟨nofun, ?_⟩
  rintro s ⟨⟩
  refine ⟨nofun, ?_⟩
  rintro s ⟨⟩
  refine ⟨nofun, ?_⟩
  rintro s ⟨⟩
  refine ⟨nofun, ?_⟩
  rintro s ⟨⟩
  refine ⟨?_, fun _ _ => trivial⟩
  rintro err b falible k p rest j - hstack hj b' k' p' hmem -
  cases hstack
  cases hj
  cases hmem

/-- Sys calls one box, from its callback the other one, and from its callback the first one
again, which aborts. The pointer of the other box is left behind. -/
theorem not_targets_neighbours : ¬ ∀ s : State Bool,
    Run (neighbours .jumptable) (fun _ _ => True) s →
    ∀ b, s.jmpbuf b = none ∨ s.jmpbuf b = innermost b s.stack := by
  intro h
  obtain ⟨s, hs, hj, hstack⟩ : ∃ s, after (neighbours .jumptable)
      [.init true, .loaded 0 0, .boxReturn 0, .init false, .loaded 0 0, .boxReturn 0,
        .call true ⟨true, true⟩, .callback false, .call false ⟨true, true⟩, .callback false,
        .call true ⟨false, true⟩, .abort (-1)] .initial = some s ∧
      s.jmpbuf false = some 3 ∧ s.stack = [] := ⟨_, rfl, rfl, rfl⟩
  rcases h s (run_after _ (.start rfl) (allowed_true ..) hs) false with hnone | hinner
  · rw [hj] at hnone
    cases hnone
  · rw [hj, hstack] at hinner
    cases hinner

end BentoLinker.Runtimes
