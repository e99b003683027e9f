import BentoLinker.Runtimes.Effects

/-!
# Roommates at Run Time

Boxes that share memory are not initialized at the same time.

- `Apart`: no two roommates are marked initialized
- `Exclusive`: no init begins while a roommate's is under way
- `apart_run`: roommates are apart in every run of exclusive steps
- `not_apart_hosts`: a callback of a postinit brings up a roommate

`__box_X_init` brings down the roommates first and sets its own flag last. In between run
the load hook and postinit, which may call back; what is brought up there stays up.
-/

namespace BentoLinker.Runtimes

variable {ι : Type} [DecidableEq ι] {c : Config ι} {s : State ι}

/-! ## Section 1: Boxes that are up or on the way -/

/-- Two boxes, the second one in the list of the first -/
def Roommates (c : Config ι) (a b : ι) : Prop := a ≠ b ∧ b ∈ c.roommates a

/-- No two roommates are marked initialized. -/
def Apart (c : Config ι) (s : State ι) : Prop :=
  ∀ a b, Roommates c a b → ¬ (s.initialized a = true ∧ s.initialized b = true)

/-- `__box_b_init` is under way. -/
def Pending (s : State ι) (b : ι) : Prop := ∃ w l, .init b w l ∈ s.stack

/-- No init begins while one of a roommate is under way. -/
def Exclusive (c : Config ι) (e : Event ι) (s : State ι) : Prop :=
  ∀ x, startsInit c s e = some x → ∀ b, Roommates c b x → ¬ Pending s b

/-- Initialized, or about to be -/
def Busy (s : State ι) (b : ι) : Prop := s.initialized b = true ∨ Pending s b

omit [DecidableEq ι] in
theorem busy_of_quiet {s t : State ι} (h : Quiet s t) {b : ι} (hbusy : Busy t b) :
    Busy s b := by
  rcases hbusy with hinit | ⟨w, l, hmem⟩
  · exact .inl (h.initialized b hinit)
  · exact .inr ⟨w, l, h.inits b w l hmem⟩

/-- Only a box with a pending init is marked. -/
theorem busy_of_completed {s : State ι} {b x : ι} {load : ℕ} (hb : Busy s b)
    (hbusy : Busy (completed b load s) x) : Busy s x := by
  rcases hbusy with hinit | hpending
  · by_cases hx : x = b
    · exact hx ▸ hb
    · exact .inl (by simpa [completed, hx] using hinit)
  · exact .inr hpending

/-- A step that begins no init does not make a box busy. -/
theorem begun_or_busy {e : Event ι} {s s' : State ι} (h : Effect c e s s') :
    (∃ b w, startsInit c s e = some b ∧ s' = begun c b w s) ∨
      ∀ x, Busy s' x → Busy s x := by
  by_cases hbegun : ∃ b w, startsInit c s e = some b ∧ s' = begun c b w s
  · exact .inl hbegun
  refine .inr fun x hbusy => ?_
  cases h with
  | calm hcalm => exact busy_of_quiet hcalm.toQuiet hbusy
  | call b call _ _ hs' =>
    subst hs'
    exact busy_of_quiet (quiet_wrapperCall ..) hbusy
  | callback b falible hstack hcalm =>
    refine busy_of_quiet hcalm.toQuiet (hbusy.imp_right ?_)
    rintro ⟨w, l, hmem⟩
    rw [hstack] at hmem
    exact ⟨w, l, by simpa using hmem⟩
  | begun b w hstarts hs' => exact absurd ⟨b, w, hstarts, hs'⟩ hbegun
  | loaded b w hmem hpop hpush =>
    -- the init goes on, with its postinit
    rcases busy_of_quiet hpush.toQuiet hbusy with hinit | ⟨w', l, hmem'⟩
    · exact busy_of_quiet hpop.toQuiet (.inl hinit)
    · rcases List.mem_cons.mp hmem' with heq | hmem'
      · cases heq
        exact .inr ⟨w, none, hmem⟩
      · exact busy_of_quiet hpop.toQuiet (.inr ⟨w', l, hmem'⟩)
  | broken b hpop hcalm => exact busy_of_quiet hpop.toQuiet (busy_of_quiet hcalm.toQuiet hbusy)
  | @up b w t hmem hpop hcalm =>
    rcases busy_of_quiet hcalm.toQuiet hbusy with hinit | hpending
    · by_cases hx : x = b
      · exact .inr ⟨w, none, hx ▸ hmem⟩
      · refine busy_of_quiet hpop.toQuiet (.inl ?_)
        simpa [completed, reloaded, hx] using hinit
    · exact busy_of_quiet hpop.toQuiet (.inr hpending)
  | completed b w load hmem _ hpop hcalm =>
    rcases busy_of_quiet hcalm.toQuiet hbusy with hinit | hpending
    · by_cases hx : x = b
      · exact .inr ⟨w, some load, hx ▸ hmem⟩
      · refine busy_of_quiet hpop.toQuiet (.inl ?_)
        simpa [completed, hx] using hinit
    · exact busy_of_quiet hpop.toQuiet (.inr hpending)
  | died b _ hpop hcalm => exact busy_of_quiet hpop.toQuiet (busy_of_quiet hcalm.toQuiet hbusy)

/-! ## Section 2: Runs -/

/-- At most one of two roommates is busy. -/
def BusyApart (c : Config ι) (s : State ι) : Prop :=
  ∀ a b, Roommates c a b → ¬ (Busy s a ∧ Busy s b)

/-- An init that begins brings down the roommates. -/
theorem busyApart_begun {b : ι} {w : Option Call} (hinv : BusyApart c s)
    (hsym : ∀ a b, a ∈ c.roommates b → b ∈ c.roommates a)
    (hpending : ∀ r, Roommates c r b → ¬ Pending s r) : BusyApart c (begun c b w s) := by
  -- a busy box is the one that begins, or it has been busy and is no roommate of it
  have hbusy : ∀ x, Busy (begun c b w s) x → x = b ∨ Busy s x ∧ ¬ Roommates c x b := by
    intro x hx
    by_cases hxb : x = b
    · exact .inl hxb
    refine .inr ?_
    rcases hx with hinit | ⟨w', l, hmem⟩
    · obtain ⟨hnot, hinit⟩ := initialized_begun.mp hinit
      exact ⟨.inl hinit, fun h => hnot (hsym _ _ h.2)⟩
    · rcases List.mem_cons.mp hmem with heq | hmem
      · cases heq
        exact absurd rfl hxb
      · exact ⟨.inr ⟨w', l, hmem⟩, fun h => hpending x h ⟨w', l, hmem⟩⟩
  rintro x y ⟨hne, hroom⟩ ⟨hx, hy⟩
  rcases hbusy x hx with rfl | ⟨hx, hxb⟩
  · rcases hbusy y hy with rfl | ⟨-, hyb⟩
    · exact hne rfl
    · exact hyb ⟨hne.symm, hsym _ _ hroom⟩
  · rcases hbusy y hy with rfl | ⟨hy, -⟩
    · exact hxb ⟨hne, hroom⟩
    · exact hinv x y ⟨hne, hroom⟩ ⟨hx, hy⟩

theorem busyApart_step {e : Event ι} {s' : State ι}
    (hsym : ∀ a b, a ∈ c.roommates b → b ∈ c.roommates a) (hinv : BusyApart c s)
    (hok : Exclusive c e s) (hstep : step c s e = some s') : BusyApart c s' := by
  rcases begun_or_busy (effect_of_step hstep) with ⟨b, w, hstarts, rfl⟩ | hbusy
  · exact busyApart_begun hinv hsym (hok b hstarts)
  · exact fun a b h hboth => hinv a b h ⟨hbusy a hboth.1, hbusy b hboth.2⟩

/-- With symmetric lists of roommates, roommates are never initialized together, if no init
begins while one of a roommate is under way. -/
theorem apart_run (hsym : ∀ a b, a ∈ c.roommates b → b ∈ c.roommates a)
    (h : Run c (Exclusive c) s) : Apart c s := by
  have hinv : BusyApart c s := by
    refine h.invariant (BusyApart c) ?_ fun e s s' => busyApart_step hsym
    rintro s rfl a b - ⟨ha, -⟩
    rcases ha with hinit | ⟨w, l, hmem⟩
    · cases hinit
    · cases hmem
  exact fun a b hroom hboth => hinv a b hroom ⟨.inl hboth.1, .inl hboth.2⟩

/-- The first of two boxes is brought up. -/
theorem apart_hosts : ∃ s : State Bool,
    after (hosts .jumptable) [.init true, .loaded 0 0, .boxReturn 0] .initial = some s ∧
      s.initialized true = true ∧ Apart (hosts .jumptable) s := by
  obtain ⟨s, hs, hup⟩ : ∃ s, after (hosts .jumptable)
      [.init true, .loaded 0 0, .boxReturn 0] .initial = some s ∧ s.initialized true = true :=
    ⟨_, rfl, rfl⟩
  refine ⟨s, hs, hup, apart_run (by decide) (run_after _ (.start rfl) ?_ hs)⟩
  refine ⟨?_, ?_⟩
  · rintro x - b - ⟨w, l, hmem⟩
    cases hmem
  · rintro s ⟨⟩
    refine ⟨nofun, ?_⟩
    rintro s ⟨⟩
    exact ⟨nofun, fun _ _ => trivial⟩

/-- The postinit of the first box calls back, and sys brings up the second one. -/
theorem not_apart_hosts : ¬ ∀ s : State Bool,
    Run (hosts .jumptable) (fun _ _ => True) s → Apart (hosts .jumptable) s := by
  intro h
  obtain ⟨s, hs, hboth⟩ : ∃ s, after (hosts .jumptable)
      [.init true, .loaded 0 0, .callback false, .init false, .loaded 0 0, .boxReturn 0,
        .callbackReturn, .boxReturn 0] .initial = some s ∧
      s.initialized true = true ∧ s.initialized false = true := ⟨_, rfl, rfl, rfl⟩
  exact h s (run_after _ (.start rfl) (allowed_true ..) hs) true false ⟨by decide, by decide⟩ hboth

end BentoLinker.Runtimes
