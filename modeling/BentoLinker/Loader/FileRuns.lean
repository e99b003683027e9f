import BentoLinker.Loader.FileSystem
import Mathlib.Tactic.ByContra

/-!
# Runs of the File-System Loader

What the load functions do when a hook fails, at whatever point, and for any file.

1. `FileRun`: the traces of a load; `FSLoader.Returns.fileRun`: there are no others
2. `failsClosed_iff`: when no result of a hook goes unnoticed
3. `releases_iff`: when the file is closed

A load is a call of `open`, a part that works on the open file, and a call of `close`. Each part
stops at its first failure (`Part`). What it leaves out then is the call of `close`.
-/

namespace BentoLinker.Loader

open TracedRun

/-! ## Section 1: Traces -/

/-- Targets whose bytes are looked at -/
def Target.Looked : Target → Prop
  | .header | .blob => True
  | .image _ => False

/-- Calls on a descriptor, apart from those that open and close it -/
def Event.On (fd : BitVec 32) : Event → Prop
  | .read fd' _ _ _ | .seek fd' _ _ => fd' = fd
  | .used _ _ | .refused => True
  | .opened _ _ | .closed _ _ => False

/-- What is looked at are the results of the reads that went through. -/
def Looked (evs : List Event) : Prop :=
  ∀ n res, .used n res ∈ evs ↔
    ∃ fd target, target.Looked ∧ .read fd target n res ∈ evs ∧ n ≤ res.toNat

/-- What a load does between the calls of `open` and `close` -/
structure OnFile (fd : BitVec 32) (evs : List Event) : Prop where
  on : ∀ e ∈ evs, e.On fd
  looked : Looked evs

/-- The traces of a load, with what it returns. It stops behind an `open` that fails, leaves
without a `close`, or ends with one. -/
inductive FileRun : List Event → Except Stop Unit → Prop
  | unopened {err fd : BitVec 32} (herr : err ≠ 0) :
      FileRun [.opened err fd] (.error (.err err.toInt))
  | left {fd : BitVec 32} {evs : List Event} {c : Stop} (hevs : OnFile fd evs)
      (hend : Ending Event.failure .outOfFuel evs (.error c : Except Stop Unit)) :
      FileRun (.opened 0 fd :: evs) (.error c)
  | closed {fd err : BitVec 32} {evs : List Event} {r : Except Stop Unit} (hevs : OnFile fd evs)
      (hclean : Clean Event.failure evs)
      (hend : Ending Event.failure .outOfFuel [.closed fd err] r) :
      FileRun (.opened 0 fd :: (evs ++ [.closed fd err])) r

theorem failure_read {fd res : BitVec 32} {target : Target} {n : ℕ} :
    (Event.read fd target n res).failure = none ↔ n ≤ res.toNat := by
  rw [Event.failure, ← Nat.not_lt]
  constructor
  · intro h hlt
    rw [if_pos hlt] at h
    split at h
    · cases h
    · cases h
  · exact fun hle => if_neg hle

/-- Nothing that a load returns for a failure is 0. -/
theorem exists_of_failure {e : Event} {c : Stop} (h : e.failure = some c) :
    ∃ z, c = .err z ∧ z ≠ 0 := by
  have hne : ∀ {x : BitVec 32}, x ≠ 0 → x.toInt ≠ 0 := by
    intro x hx hzero
    exact hx (BitVec.toInt_inj.mp (hzero.trans BitVec.toInt_zero.symm))
  cases e with
  | opened err fd =>
    simp only [Event.failure, Option.ite_none_right_eq_some, Option.some.injEq] at h
    exact ⟨_, h.2.symm, hne h.1⟩
  | closed fd err =>
    simp only [Event.failure, Option.ite_none_right_eq_some, Option.some.injEq] at h
    exact ⟨_, h.2.symm, hne h.1⟩
  | read fd target n res =>
    simp only [Event.failure, Option.ite_none_right_eq_some] at h
    obtain ⟨-, h⟩ := h
    split at h
    · next hneg =>
      cases h
      exact ⟨_, rfl, hneg.ne⟩
    · cases h
      refine ⟨_, rfl, ?_⟩
      cases target with
      | header | blob => decide
      | image region => exact (by decide : -enoexec ≠ 0)
  | seek fd off res =>
    simp only [Event.failure, Option.ite_none_right_eq_some, Option.some.injEq] at h
    exact ⟨_, h.2.symm, h.1.ne⟩
  | used n res => cases h
  | refused =>
    cases h
    exact ⟨_, rfl, by decide⟩

/-! ### What the parts of a load do -/

theorem looked_nil : Looked [] := by
  intro n res
  constructor
  · intro h
    cases h
  · rintro ⟨_, _, _, h, _⟩
    cases h

theorem Looked.append {evs evs' : List Event} (h : Looked evs) (h' : Looked evs') :
    Looked (evs ++ evs') := by
  intro n res
  rw [List.mem_append, h n res, h' n res]
  constructor
  · rintro (⟨fd, t, ht, hmem, hle⟩ | ⟨fd, t, ht, hmem, hle⟩)
    · exact ⟨fd, t, ht, List.mem_append_left _ hmem, hle⟩
    · exact ⟨fd, t, ht, List.mem_append_right _ hmem, hle⟩
  · rintro ⟨fd, t, ht, hmem, hle⟩
    rcases List.mem_append.mp hmem with hmem | hmem
    · exact .inl ⟨fd, t, ht, hmem, hle⟩
    · exact .inr ⟨fd, t, ht, hmem, hle⟩

/-- An event that neither is a look nor is looked at -/
theorem looked_singleton {e : Event} (hused : ∀ n res, e ≠ .used n res)
    (hread : ∀ fd t n res, t.Looked → n ≤ res.toNat → e ≠ .read fd t n res) : Looked [e] := by
  intro n res
  constructor
  · intro h
    exact absurd (List.mem_singleton.mp h).symm (hused n res)
  · rintro ⟨fd, t, ht, hmem, hle⟩
    exact absurd (List.mem_singleton.mp hmem).symm (hread fd t n res ht hle)

section Parts

variable {W fuel : ℕ} {h : Hooks} {fd : BitVec 32}

theorem onFile_nil : OnFile fd [] := ⟨fun _ he => (List.not_mem_nil he).elim, looked_nil⟩

theorem OnFile.append {evs evs' : List Event} (h : OnFile fd evs) (h' : OnFile fd evs') :
    OnFile fd (evs ++ evs') := by
  refine ⟨?_, h.looked.append h'.looked⟩
  intro e he
  rcases List.mem_append.mp he with he | he
  · exact h.on e he
  · exact h'.on e he

/-- A part of a load that has the file open -/
abbrev Part (fd : BitVec 32) {α : Type} (m : Hooked α) : Prop :=
  Adds Event.failure .outOfFuel (OnFile fd) m

theorem Part.bind {α β : Type} {m : Hooked α} {f : α → Hooked β} (hm : Part fd m)
    (hf : ∀ a, Part fd (f a)) : Part fd (m >>= f) :=
  Adds.bind (fun _ _ => OnFile.append) hm hf

theorem part_pure {α : Type} (a : α) : Part fd (pure a : Hooked α) := adds_pure onFile_nil a

theorem part_seekFile (off : ℕ) : Part fd (seekFile h fd off) := by
  apply adds_perform
  intro log
  refine ⟨?_, looked_singleton (by nofun) (by nofun)⟩
  intro e he
  obtain rfl := List.mem_singleton.mp he
  rfl

theorem part_refuse : Part fd refuse := by
  apply adds_perform
  intro log
  refine ⟨?_, looked_singleton (by nofun) (by nofun)⟩
  intro e he
  obtain rfl := List.mem_singleton.mp he
  trivial

theorem part_readFile_image (region n : ℕ) : Part fd (readFile h fd (.image region) n) := by
  apply adds_perform
  intro log
  refine ⟨?_, looked_singleton (by nofun) ?_⟩
  · intro e he
    obtain rfl := List.mem_singleton.mp he
    rfl
  · rintro fd' t n' res' ht - heq
    cases heq
    exact ht

/-- What has been read is looked at if the read went through. -/
theorem part_readInto {target : Target} (htarget : target.Looked) (n : ℕ) :
    Part fd (readInto h fd target n) := by
  intro log
  rcases hread : h.readHook log fd target n with ⟨res, bytes⟩
  have hon : ∀ e ∈ [Event.read fd target n res, .used n res], e.On fd := by
    intro e he
    rcases List.mem_pair.mp he with rfl | rfl
    · rfl
    · trivial
  by_cases hle : n ≤ res.toNat
  · have hrun : readFile h fd target n log = (.ok (res, bytes), log ++ [.read fd target n res]) :=
      perform_of_none (by rw [hread]) (failure_read.mpr hle)
    refine ⟨[.read fd target n res, .used n res], ?_, ⟨hon, ?_⟩, ?_⟩
    · rw [readInto, bind_of_ok hrun]
      exact List.append_assoc ..
    · intro n' res'
      constructor
      · intro hmem
        rcases List.mem_pair.mp hmem with heq | heq
        · cases heq
        · cases heq
          exact ⟨fd, target, htarget, List.mem_cons_self .., hle⟩
      · rintro ⟨fd', t, -, hmem, -⟩
        rcases List.mem_pair.mp hmem with heq | heq
        · cases heq
          exact List.mem_cons_of_mem _ (List.mem_singleton_self _)
        · cases heq
    · rw [readInto, bind_of_ok hrun]
      apply Ending.ok
      intro e he
      rcases List.mem_pair.mp he with rfl | rfl
      · exact failure_read.mpr hle
      · rfl
  · have hfailed : (Event.read fd target n res).failure ≠ none := mt failure_read.mp hle
    obtain ⟨c, hc⟩ := Option.ne_none_iff_exists'.mp hfailed
    have hrun : readFile h fd target n log = (.error c, log ++ [.read fd target n res]) :=
      perform_of_failure (by rw [hread]) hc
    refine ⟨[.read fd target n res], ?_, ⟨?_, ?_⟩, ?_⟩
    · rw [readInto, bind_of_error hrun]
    · exact fun e he => hon e (List.mem_cons.mpr (.inl (List.mem_singleton.mp he)))
    · apply looked_singleton
      · nofun
      · rintro fd' t n' res' - hle' heq
        cases heq
        exact hle hle'
    · rw [readInto, bind_of_error hrun]
      exact .append clean_nil (.failed clean_nil hc)

theorem part_readHeader (n : ℕ) : Part fd (readInto h fd .header n) :=
  part_readInto (by trivial) n

theorem part_seekread (off addr n : ℕ) : Part fd (seekread h fd off addr n) :=
  (part_seekFile _).bind fun _ => part_readInto (by trivial) n

theorem closed_part : Effect.Closed (m := Hooked) fun _ m => Part fd m where
  pure := part_pure
  bind := Part.bind
  outOfFuel := adds_throw onFile_nil

theorem part_decode (k ctx off size : ℕ) :
    Part fd (Effect.decode W (seekread h fd ctx) fuel k off size) :=
  closed_part.decode (part_seekread ctx) _ _ _ _

theorem part_loadLoop (i off : ℕ) (limits : List ℕ) : Part fd (loadLoop h fd i off limits) := by
  induction limits generalizing i off with
  | nil => exact part_pure _
  | cons limit limits ih =>
    apply (part_seekFile _).bind
    intro _
    apply (part_readHeader _).bind
    intro x
    dsimp only
    split
    · exact part_refuse
    · apply (part_seekFile _).bind
      intro _
      exact (part_readFile_image _ _).bind fun _ => ih _ _

theorem part_loadDecodeLoop (n k i : ℕ) (limits : List ℕ) :
    Part fd (loadDecodeLoop W h fuel fd n k i limits) := by
  induction limits generalizing i with
  | nil => exact part_pure _
  | cons limit limits ih =>
    apply (part_seekFile _).bind
    intro _
    apply (part_readHeader _).bind
    intro x
    dsimp only
    split
    · exact part_refuse
    · exact (part_decode _ _ _ _).bind fun _ => ih _

/-- The four functions are the frame around something that works on the file. -/
theorem FSLoader.exists_body (W : ℕ) (h : Hooks) (fuel : ℕ) (c : FSLoader) :
    ∃ body, c.load W h fuel = withFile h c.path body ∧ ∀ fd, Part fd (body fd) := by
  -- all four read a header, and refuse it or go on
  have hheader : ∀ {fd n} {refused : List UInt8 → Prop} [DecidablePred refused]
      {rest : List UInt8 → Hooked Unit}, (∀ x, Part fd (rest x)) →
      Part fd (readInto h fd .header n >>= fun x => if refused x then refuse else rest x) := by
    intro fd n refused _ rest hrest
    apply (part_readHeader _).bind
    intro x
    split
    · exact part_refuse
    · exact hrest x
  unfold FSLoader.load
  split
  · refine ⟨_, rfl, fun fd => hheader fun x => ?_⟩
    exact (part_readFile_image _ _).bind fun _ => part_pure _
  · refine ⟨_, rfl, fun fd => hheader fun x => ?_⟩
    exact (part_decode _ _ _ _).bind fun _ => part_pure _
  · exact ⟨_, rfl, fun fd => hheader fun x => part_loadLoop _ _ _⟩
  · exact ⟨_, rfl, fun fd => hheader fun x => part_loadDecodeLoop _ _ _ _⟩

theorem fileRun_withFile {path : String} {body : BitVec 32 → Hooked Unit}
    (hbody : ∀ fd, Part fd (body fd)) :
    FileRun (withFile h path body []).2 (withFile h path body []).1 := by
  rcases hopen : h.openHook [] path 0 with ⟨err, fd⟩
  by_cases herr : err = 0
  · subst herr
    have hrun : openFile h path [] = (.ok fd, [.opened 0 fd]) :=
      perform_of_none (by rw [hopen]) rfl
    obtain ⟨evs, hlog, hevs, hend⟩ := hbody fd [.opened 0 fd]
    rw [withFile, bind_of_ok hrun]
    rcases hbodyrun : body fd [.opened 0 fd] with ⟨_ | _, log⟩
    · rw [hbodyrun] at hlog hend
      rw [bind_of_error hbodyrun]
      obtain rfl : log = .opened 0 fd :: evs := hlog
      exact .left hevs hend
    · rw [hbodyrun] at hlog hend
      rw [bind_of_ok hbodyrun]
      obtain rfl : log = .opened 0 fd :: evs := hlog
      have hclose : Adds Event.failure .outOfFuel (fun evs => ∃ err, evs = [.closed fd err])
          (closeFile h fd) := adds_perform fun log => ⟨_, rfl⟩
      obtain ⟨_, hlog', ⟨err, rfl⟩, hend'⟩ := hclose (.opened 0 fd :: evs)
      rw [hlog']
      exact .closed hevs hend.clean hend'
  · have hrun : openFile h path [] = (.error (.err err.toInt), [.opened err fd]) :=
      perform_of_failure (by rw [hopen]) (if_pos herr)
    rw [withFile, bind_of_error hrun]
    exact .unopened herr

end Parts

/-! ### Loads that return -/

/-- What a load that returns has done, and what it returns -/
def FSLoader.Returns (W : ℕ) (h : Hooks) (c : FSLoader) (evs : List Event)
    (r : Except Stop Unit) : Prop :=
  r ≠ .error .outOfFuel ∧ ∃ fuel, c.load W h fuel [] = (r, evs)

section Returns

variable {W : ℕ} {h : Hooks} {c : FSLoader} {evs : List Event} {r : Except Stop Unit}

theorem FSLoader.Returns.fileRun (hreturns : c.Returns W h evs r) : FileRun evs r := by
  obtain ⟨-, fuel, hrun⟩ := hreturns
  obtain ⟨body, hload, hbody⟩ := FSLoader.exists_body W h fuel c
  have htrace : FileRun (withFile h c.path body []).2 (withFile h c.path body []).1 :=
    fileRun_withFile hbody
  rwa [← hload, hrun] at htrace

theorem failure_ne_outOfFuel (e : Event) : e.failure ≠ some .outOfFuel := by
  intro he
  obtain ⟨_, heq, -⟩ := exists_of_failure he
  cases heq

theorem halts_readInto (fd : BitVec 32) (target : Target) (n : ℕ) :
    Halts .outOfFuel (readInto h fd target n) := by
  apply Halts.bind (halts_perform failure_ne_outOfFuel)
  intro _
  exact Halts.bind (halts_perform failure_ne_outOfFuel) fun _ => halts_pure _

theorem halts_withFile {path : String} {body : BitVec 32 → Hooked Unit}
    (hbody : ∀ fd, Halts .outOfFuel (body fd)) : Halts .outOfFuel (withFile h path body) := by
  apply Halts.bind (halts_perform failure_ne_outOfFuel)
  intro fd
  exact Halts.bind (hbody fd) fun _ => halts_perform failure_ne_outOfFuel

theorem halts_loadLoop (fd : BitVec 32) (i off : ℕ) (limits : List ℕ) :
    Halts .outOfFuel (loadLoop h fd i off limits) := by
  induction limits generalizing i off with
  | nil => exact halts_pure _
  | cons limit limits ih =>
    apply Halts.bind (halts_perform failure_ne_outOfFuel)
    intro _
    apply Halts.bind (halts_readInto _ _ _)
    intro x
    dsimp only
    split
    · exact halts_perform failure_ne_outOfFuel
    · apply Halts.bind (halts_perform failure_ne_outOfFuel)
      intro _
      exact Halts.bind (halts_perform failure_ne_outOfFuel) fun _ => ih _ _

/-- Without compression every load returns. -/
theorem FSLoader.exists_returns (hc : c.compressed = false) : ∃ evs r, c.Returns W h evs r := by
  have hhalts : Halts .outOfFuel (c.load W h 0) := by
    rw [FSLoader.load, hc]
    split
    · apply halts_withFile
      intro fd
      apply Halts.bind (halts_readInto _ _ _)
      intro x
      dsimp only
      split
      · exact halts_perform failure_ne_outOfFuel
      · exact Halts.bind (halts_perform failure_ne_outOfFuel) fun _ => halts_pure _
    · next heq => cases heq
    · apply halts_withFile
      intro fd
      apply Halts.bind (halts_readInto _ _ _)
      intro x
      dsimp only
      split
      · exact halts_perform failure_ne_outOfFuel
      · exact halts_loadLoop _ _ _ _
    · next heq _ => cases heq
  exact ⟨_, _, hhalts [], 0, rfl⟩

end Returns

/-! ## Section 2: Results that go unnoticed -/

/-- The call did what it was asked for. -/
def Event.Succeeded : Event → Prop
  | .opened err _ | .closed _ err => err = 0
  | .read _ _ n res => (n : ℤ) ≤ res.toInt
  | .seek _ _ res => 0 ≤ res.toInt
  | .used _ _ | .refused => True

/-- A trace and a result with which a load fails closed -/
structure ClosedTrace (evs : List Event) (r : Except Stop Unit) : Prop where
  delivered : r = .ok () → ∀ e ∈ evs, e.Succeeded
  used : ∀ (n : ℕ) res, .used n res ∈ evs → (n : ℤ) ≤ res.toInt
  nonzero : r ≠ .ok () → ∃ z, r = .error (.err z) ∧ z ≠ 0

/-- The load returns, 0 only if every call did what it was asked for, and looks at nothing that
has not been read. -/
def FailsClosed (W : ℕ) (h : Hooks) (c : FSLoader) : Prop :=
  ∃ evs r, c.Returns W h evs r ∧ ClosedTrace evs r

/-- An error of `read` that is as good as a count when it is taken for a number without a sign
is one for an image, and there is another failure that the load returns for. -/
def Reported (evs : List Event) : Prop :=
  ∀ fd target n res, .read fd target n res ∈ evs → res.toInt < 0 → n ≤ res.toNat →
    ¬ target.Looked ∧ ∃ e ∈ evs, e.failure ≠ none

theorem FileRun.looked {evs : List Event} {r : Except Stop Unit} (hrun : FileRun evs r) :
    Looked evs := by
  have hopened : ∀ {err fd}, Looked [.opened err fd] := looked_singleton (by nofun) (by nofun)
  cases hrun with
  | unopened herr => exact hopened
  | left hevs hend => exact hopened.append hevs.looked
  | closed hevs hclean hend =>
    exact hopened.append (hevs.looked.append (looked_singleton (by nofun) (by nofun)))

theorem FileRun.ending {evs : List Event} {r : Except Stop Unit} (hrun : FileRun evs r) :
    Ending Event.failure .outOfFuel evs r := by
  have hopened : ∀ {fd}, Clean Event.failure [.opened 0 fd] := clean_singleton rfl
  cases hrun with
  | unopened herr => exact .append clean_nil (.failed clean_nil (if_pos herr))
  | left hevs hend => exact .append hopened hend
  | closed hevs hclean hend => exact .append hopened (.append hclean hend)

/-- Where the sign bit is not set, the two readings of a result are one. -/
theorem le_toInt_iff {n : ℕ} {res : BitVec 32} :
    (n : ℤ) ≤ res.toInt ↔ n ≤ res.toNat ∧ 0 ≤ res.toInt := by
  rw [BitVec.toInt_eq_toNat_cond]
  split <;> omega

theorem Event.succeeded_of_failure {e : Event} (h : e.failure = none)
    (hread : ∀ fd target n res, e = .read fd target n res → 0 ≤ res.toInt)
    (hrefused : e ≠ .refused) : e.Succeeded := by
  cases e with
  | opened err fd => simpa [Event.failure, Event.Succeeded] using h
  | closed fd err => simpa [Event.failure, Event.Succeeded] using h
  | read fd target n res =>
    exact le_toInt_iff.mpr ⟨failure_read.mp h, hread _ _ _ _ rfl⟩
  | seek fd off res => simpa [Event.failure, Event.Succeeded] using h
  | used n res => trivial
  | refused => trivial

/-- A load fails closed unless an error of `read` gets through. -/
theorem failsClosed_iff (W : ℕ) (h : Hooks) (c : FSLoader) :
    FailsClosed W h c ↔ ∃ evs r, c.Returns W h evs r ∧ Reported evs := by
  constructor
  · rintro ⟨evs, r, hreturns, hclosed⟩
    refine ⟨evs, r, hreturns, ?_⟩
    intro fd target n res hmem hneg hle
    have hslip : ¬ (n : ℤ) ≤ res.toInt := by omega
    refine ⟨?_, ?_⟩
    · intro htarget
      exact hslip (hclosed.used n res
        ((hreturns.fileRun.looked n res).mpr ⟨fd, target, htarget, hmem, hle⟩))
    · have hr : r ≠ .ok () := fun hr => hslip (hclosed.delivered hr _ hmem)
      obtain ⟨z, rfl, -⟩ := hclosed.nonzero hr
      obtain ⟨e, he, hfailure⟩ := hreturns.fileRun.ending.exists_failure nofun
      exact ⟨e, he, by rw [hfailure]; nofun⟩
  · rintro ⟨evs, r, hreturns, hreported⟩
    refine ⟨evs, r, hreturns, ?_, ?_, ?_⟩
    · rintro rfl e he
      have hclean := hreturns.fileRun.ending.clean
      apply Event.succeeded_of_failure (hclean e he)
      · rintro fd target n res rfl
        by_contra hneg
        obtain ⟨-, e', he', hfailure⟩ := hreported fd target n res he (not_le.mp hneg)
          (failure_read.mp (hclean _ he))
        exact hfailure (hclean e' he')
      · rintro rfl
        cases hclean _ he
    · intro n res hmem
      obtain ⟨fd, target, htarget, hread, hle⟩ := (hreturns.fileRun.looked n res).mp hmem
      apply le_toInt_iff.mpr ⟨hle, ?_⟩
      by_contra hneg
      exact (hreported fd target n res hread (not_le.mp hneg) hle).1 htarget
    · intro hr
      cases r with
      | ok _ => exact absurd rfl hr
      | error stop =>
        obtain ⟨e, -, hfailure⟩ := hreturns.fileRun.ending.exists_failure
          fun heq => hreturns.1 (congrArg _ heq)
        obtain ⟨z, rfl, hz⟩ := exists_of_failure hfailure
        exact ⟨z, rfl, hz⟩

/-- One region of four bytes, without compression -/
def oneRegion : FSLoader := ⟨"/box", none, [4]⟩

/-- A file on which every read fails with `-EIO` and leaves its buffer as it is -/
def ioError : Hooks where
  openHook _ _ _ := (0, 3)
  readHook _ _ _ _ := (-5, [])
  seekHook _ _ _ _ := 0
  closeHook _ _ := 0

/-- Neither the header nor the image has been read, and the load returns 0. -/
theorem not_failsClosed : ¬ FailsClosed 32 ioError oneRegion := by
  rintro ⟨evs, r, ⟨-, fuel, hrun⟩, hclosed⟩
  have hevs : (oneRegion.load 32 ioError fuel []).2 = [.opened 0 3, .read 3 .header 4 (-5),
      .used 4 (-5), .read 3 (.image 0) 0 (-5), .closed 3 0] := by
    change (load ioError "/box" 4 []).2 = _
    decide
  rw [hrun] at hevs
  subst hevs
  exact absurd (hclosed.used 4 (-5) (by decide)) (by decide)

/-! ## Section 3: The file is closed -/

/-- The descriptors that are open behind an event, if it is not a call on another one -/
def Event.track (fds : List (BitVec 32)) : Event → Option (List (BitVec 32))
  | .opened err fd => some (if err = 0 then fd :: fds else fds)
  | .read fd _ _ _ | .seek fd _ _ => if fd ∈ fds then some fds else none
  | .closed fd _ => if fd ∈ fds then some (fds.erase fd) else none
  | .used _ _ | .refused => some fds

/-- Every descriptor is closed once, and not used when it is not open. -/
def Released (evs : List Event) : Prop := evs.foldlM Event.track [] = some []

instance (evs : List Event) : Decidable (Released evs) :=
  inferInstanceAs (Decidable (evs.foldlM Event.track [] = some []))

/-- The load returns, and has released the file. -/
def Releases (W : ℕ) (h : Hooks) (c : FSLoader) : Prop :=
  ∃ evs r, c.Returns W h evs r ∧ Released evs

/-- Calls of `open` and `close` -/
def Event.OfFrame : Event → Prop
  | .opened _ _ | .closed _ _ => True
  | .read _ _ _ _ | .seek _ _ _ | .used _ _ | .refused => False

theorem Event.On.not_ofFrame {fd : BitVec 32} {e : Event} (h : e.On fd) : ¬ e.OfFrame := by
  cases e with
  | opened | closed => exact h.elim
  | read | seek | used | refused => exact id

theorem Event.On.track {fd : BitVec 32} {e : Event} (h : e.On fd) : e.track [fd] = some [fd] := by
  cases e with
  | opened | closed => exact h.elim
  | read fd' target n res =>
    obtain rfl : fd' = fd := h
    exact if_pos (List.mem_singleton_self _)
  | seek fd' off res =>
    obtain rfl : fd' = fd := h
    exact if_pos (List.mem_singleton_self _)
  | used | refused => rfl

theorem track_onFile {fd : BitVec 32} {evs : List Event} (h : ∀ e ∈ evs, e.On fd) :
    evs.foldlM Event.track [fd] = some [fd] := by
  induction evs with
  | nil => rfl
  | cons e evs ih =>
    rw [List.foldlM_cons, (h e (List.mem_cons_self ..)).track]
    exact ih fun e' he' => h e' (List.mem_cons_of_mem _ he')

/-- The file is closed unless something other than `open` and `close` fails. -/
theorem FileRun.released_iff {evs : List Event} {r : Except Stop Unit} (hrun : FileRun evs r)
    (hr : r ≠ .error .outOfFuel) :
    Released evs ↔ ∀ e ∈ evs, e.failure ≠ none → e.OfFrame := by
  cases hrun with
  | @unopened err fd herr =>
    constructor
    · intro _ e he _
      obtain rfl := List.mem_singleton.mp he
      trivial
    · intro _
      have htrack : Event.track [] (.opened err fd) = some [] := congrArg some (if_neg herr)
      rw [Released, List.foldlM_cons, htrack]
      rfl
  | @left fd evs c hevs hend =>
    constructor
    · intro hreleased
      have htrack : (Event.opened 0 fd :: evs).foldlM Event.track [] = some [fd] :=
        track_onFile hevs.on
      cases htrack.symm.trans hreleased
    · intro hframe
      obtain ⟨e, he, hfailure⟩ := hend.exists_failure fun heq => hr (congrArg _ heq)
      exact absurd (hframe e (List.mem_cons_of_mem _ he) (by rw [hfailure]; nofun))
        (hevs.on e he).not_ofFrame
  | @closed fd err evs r hevs hclean hend =>
    constructor
    · intro _ e he hfailure
      rcases List.mem_cons.mp he with rfl | he
      · trivial
      · rcases List.mem_append.mp he with he | he
        · exact absurd (hclean e he) hfailure
        · obtain rfl := List.mem_singleton.mp he
          trivial
    · intro _
      change List.foldlM Event.track [fd] (evs ++ [.closed fd err]) = some []
      rw [List.foldlM_append, track_onFile hevs.on]
      simp [Event.track]

/-- A load that leaves early leaves the file open. -/
theorem releases_iff (W : ℕ) (h : Hooks) (c : FSLoader) :
    Releases W h c ↔
      ∃ evs r, c.Returns W h evs r ∧ ∀ e ∈ evs, e.failure ≠ none → e.OfFrame := by
  constructor
  · rintro ⟨evs, r, hreturns, hreleased⟩
    exact ⟨evs, r, hreturns, (hreturns.fileRun.released_iff hreturns.1).mp hreleased⟩
  · rintro ⟨evs, r, hreturns, hframe⟩
    exact ⟨evs, r, hreturns, (hreturns.fileRun.released_iff hreturns.1).mpr hframe⟩

/-- A file that ends within its header -/
def truncated : Hooks where
  openHook _ _ _ := (0, 3)
  readHook _ _ _ _ := (2, [])
  seekHook _ _ _ _ := 0
  closeHook _ _ := 0

/-- The header is short, and the file stays open. -/
theorem not_releases : ¬ Releases 32 truncated oneRegion := by
  rintro ⟨evs, r, ⟨-, fuel, hrun⟩, hreleased⟩
  have hevs : (oneRegion.load 32 truncated fuel []).2 =
      [.opened 0 3, .read 3 .header 4 2] := by
    change (load truncated "/box" 4 []).2 = _
    decide
  rw [hrun] at hevs
  subst hevs
  exact absurd hreleased (by decide)

end BentoLinker.Loader
