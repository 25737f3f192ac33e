import Iridium.Proc.Effect

/-!
# Granting and revoking permissions

`perm_grant` and `perm_revoke` of `proc/proc.c`: the caller needs `PPERM_PERM`, and a search of the run queue that
begins behind its base finds the process. They differ in what they do to the mask, and in the answer when there is no
such process, which `perm_grant` does not negate.

So both do what they say if and only if `perm_grant` never comes to that answer (`perms_right_iff`).
-/

namespace Iridium

/-- The mask of a process changed. -/
def Kernel.setMask (k : Kernel) (p : ℕ) (f : PPERM_T → PPERM_T) : Kernel :=
  k.modify p fun q => { q with perm_mask := f q.perm_mask }

/-- What the two functions share: what is answered for a process that is not there, and what is done to the mask. -/
def perm_change (missing : ERRNO_T) (f : PPERM_T → PPERM_T) (k : Kernel) (pid : PID_T) : Kern (ERRNO_T × Kernel) := do
  if !k.current.holds PPERM_PERM then return (-EPERM, k)
  match ← ofFuel (Lib.searchBehind (fun p => (k.procs p).next) k.queue_base (fun p => (k.procs p).pid == pid)
      k.fuel k.queue_base) with
  | none => return (missing, k)
  | some p => return (EXIT_SUCCESS, k.setMask p f)

/-- `perm_grant`. -/
def perm_grant (k : Kernel) (pid : PID_T) (perms : PPERM_T) : Kern (ERRNO_T × Kernel) :=
  perm_change EXIT_FAILURE (· ||| perms) k pid

/-- `perm_revoke`. -/
def perm_revoke (k : Kernel) (pid : PID_T) (perms : PPERM_T) : Kern (ERRNO_T × Kernel) :=
  perm_change (-EXIT_FAILURE) (· &&& ~~~perms) k pid

/-- A process in the queue has the PID. -/
def HasPid (k : Kernel) (pid : PID_T) : Prop := ∃ p, k.Live p ∧ (k.procs p).pid = pid

instance (k : Kernel) (pid : PID_T) : Decidable (HasPid k pid) :=
  inferInstanceAs (Decidable (∃ p ∈ k.queue, (k.procs p).pid = pid))

/-- The mask of one process with the PID has changed, and no other. -/
def MaskSet (k k' : Kernel) (pid : PID_T) (f : PPERM_T → PPERM_T) : Prop :=
  ∃ p, k.Live p ∧ (k.procs p).pid = pid ∧ (k'.procs p).perm_mask = f (k.procs p).perm_mask ∧
    ∀ q, q ≠ p → (k'.procs q).perm_mask = (k.procs q).perm_mask

/-- **A change of a mask**: refused with an error and nothing changed, or done. -/
structure Changes (k : Kernel) (pid : PID_T) (f : PPERM_T → PPERM_T) (r : ERRNO_T × Kernel) : Prop where
  refused : k.current.holds PPERM_PERM = false ∨ ¬HasPid k pid →
    r.1 < 0 ∧ ∀ p, (r.2.procs p).perm_mask = (k.procs p).perm_mask
  done : k.current.holds PPERM_PERM = true → HasPid k pid → r.1 = EXIT_SUCCESS ∧ MaskSet k r.2 pid f

/-- **Granting and revoking** do what they say, and what is granted and then revoked leaves the other bits. -/
def PermsRight (k : Kernel) (pid : PID_T) (perms : PPERM_T) : Prop :=
  ∃ granted revoked, perm_grant k pid perms = .ok granted ∧ perm_revoke k pid perms = .ok revoked ∧
    Changes k pid (· ||| perms) granted ∧ Changes k pid (· &&& ~~~perms) revoked ∧
      (granted.1 = EXIT_SUCCESS → ∃ both, perm_revoke granted.2 pid perms = .ok both ∧ both.1 = EXIT_SUCCESS ∧
        MaskSet k both.2 pid (· &&& ~~~perms))

section Grants

variable {k : Kernel} {l : List ℕ} {p : ℕ} {pid : PID_T} {f g : PPERM_T → PPERM_T}

theorem Kernel.setMask_perm_mask (q : ℕ) :
    ((k.setMask p f).procs q).perm_mask = if q = p then f (k.procs p).perm_mask else (k.procs q).perm_mask := by
  show (Function.update k.procs p _ q).perm_mask = _
  rw [Function.update_apply]
  split <;> rfl

theorem Kernel.setMask_pid (q : ℕ) : ((k.setMask p f).procs q).pid = (k.procs q).pid := by
  show (Function.update k.procs p _ q).pid = _
  rw [Function.update_apply]
  split
  next h => rw [h]
  next => rfl

theorem Kernel.Linked.setMask (hl : k.Linked l) : (k.setMask p f).Linked l := by
  unfold Kernel.setMask
  exact hl.modify fun _ => ⟨rfl, rfl⟩

/-- A mask that is set. -/
theorem maskSet_setMask (hp : k.Live p) (hpid : (k.procs p).pid = pid) : MaskSet k (k.setMask p f) pid f :=
  ⟨p, hp, hpid, by rw [Kernel.setMask_perm_mask, if_pos rfl], fun q hq => by rw [Kernel.setMask_perm_mask, if_neg hq]⟩

/-- The process that is found: the first one with the PID, but the base is the last that is looked at. -/
def found (k : Kernel) (l : List ℕ) (pid : PID_T) : Option ℕ :=
  (l.tail ++ [k.queue_base]).find? fun p => (k.procs p).pid == pid

/-- **On a linked queue** the search comes to every process. -/
theorem perm_change_eq (hl : k.Linked l) (missing : ERRNO_T) (f : PPERM_T → PPERM_T) (pid : PID_T)
    (hh : k.current.holds PPERM_PERM = true) : perm_change missing f k pid =
      .ok (match found k l pid with
        | none => (missing, k)
        | some p => (EXIT_SUCCESS, k.setMask p f)) := by
  rw [perm_change, hh, ofFuel_ok.2 (hl.ring.searchBehind_eq _ (Kernel.length_le_fuel hl.ring.nodup hl.below)), found]
  show (match (l.tail ++ [k.queue_base]).find? _ with
    | none => pure (missing, k)
    | some p => pure (EXIT_SUCCESS, k.setMask p f) : Kern (ERRNO_T × Kernel)) = _
  split <;> rfl

theorem found_some (hl : k.Linked l) (h : found k l pid = some p) : k.Live p ∧ (k.procs p).pid = pid := by
  obtain ⟨t, ht⟩ := hl.ring.eq_cons
  have hmem := List.mem_of_find?_eq_some h
  rw [ht, List.tail_cons, List.mem_append, List.mem_singleton] at hmem
  rw [Kernel.Live, hl.queue_eq, ht, List.mem_cons]
  exact ⟨hmem.symm, by simpa using List.find?_some h⟩

theorem found_none (hl : k.Linked l) (h : found k l pid = none) : ¬HasPid k pid := by
  rintro ⟨p, hlive, hpid⟩
  obtain ⟨t, ht⟩ := hl.ring.eq_cons
  rw [Kernel.Live, hl.queue_eq, ht, List.mem_cons] at hlive
  rw [found, ht, List.tail_cons, List.find?_eq_none] at h
  refine h p ?_ (by simpa using hpid)
  rw [List.mem_append, List.mem_singleton]
  exact hlive.symm

/-- A change of a mask is no change of who is found. -/
theorem found_setMask : found (k.setMask p f) l pid = found k l pid := by
  unfold found
  simp only [Kernel.setMask_pid]
  rfl

/-- A change that is refused. -/
theorem Changes.of_refused {e : ERRNO_T} (he : e < 0) (h : k.current.holds PPERM_PERM = false ∨ ¬HasPid k pid) :
    Changes k pid f (e, k) := by
  refine ⟨fun _ => ⟨he, fun _ => rfl⟩, fun hh hp => ?_⟩
  rcases h with h | h
  · rw [hh] at h
    cases h
  · exact absurd hp h

/-- One that is done. -/
theorem Changes.of_done (hh : k.current.holds PPERM_PERM = true) (hp : k.Live p) (hpid : (k.procs p).pid = pid) :
    Changes k pid f (EXIT_SUCCESS, k.setMask p f) := by
  refine ⟨fun h => ?_, fun _ _ => ⟨rfl, maskSet_setMask hp hpid⟩⟩
  rcases h with h | h
  · rw [hh] at h
    cases h
  · exact absurd ⟨p, hp, hpid⟩ h

/-- The caller keeps `PPERM_PERM` when permissions are added. -/
theorem holds_setMask (perms : PPERM_T) (hh : k.current.holds PPERM_PERM = true) :
    (k.setMask p (· ||| perms)).current.holds PPERM_PERM = true := by
  have hor : ∀ m : PPERM_T, m &&& PPERM_PERM ≠ 0 → (m ||| perms) &&& PPERM_PERM ≠ 0 := fun m hm h0 => by
    have hbits : (m.toBitVec &&& PPERM_PERM.toBitVec) ||| (perms.toBitVec &&& PPERM_PERM.toBitVec) = 0#32 := by
      rw [← BitVec.and_or_distrib_right]
      exact congrArg UInt32.toBitVec h0
    exact hm (UInt32.toBitVec_inj.1 (BitVec.or_eq_zero_iff.1 hbits).1)
  simp only [Process.holds, bne_iff_ne] at hh ⊢
  have hmask : (k.setMask p (· ||| perms)).current.perm_mask = if k.current_task = p then
      (k.procs p).perm_mask ||| perms else k.current.perm_mask := Kernel.setMask_perm_mask k.current_task
  rw [hmask]
  split
  next h => exact hor _ (h ▸ hh)
  next => exact hh

/-- Permissions granted and revoked. -/
theorem or_and_not (m perms : PPERM_T) : (m ||| perms) &&& ~~~perms = m &&& ~~~perms := by
  refine UInt32.toBitVec_inj.1 ?_
  show (m.toBitVec ||| perms.toBitVec) &&& ~~~perms.toBitVec = m.toBitVec &&& ~~~perms.toBitVec
  rw [BitVec.and_or_distrib_right, BitVec.and_not_self]
  exact BitVec.or_zero

/-- Nobody has the PID, and `perm_grant` answers with a number that is not negative. -/
theorem not_permsRight (hl : k.Linked l) (hh : k.current.holds PPERM_PERM = true) (hno : ¬HasPid k pid)
    (perms : PPERM_T) : ¬PermsRight k pid perms := by
  rintro ⟨granted, revoked, hg, -, hgranted, -⟩
  have hfound : found k l pid = none := Option.eq_none_iff_forall_ne_some.2 fun p hp =>
    hno ⟨p, found_some hl hp⟩
  rw [perm_grant, perm_change_eq hl _ _ _ hh, hfound] at hg
  obtain rfl := Except.ok.inj hg
  exact absurd (hgranted.refused (.inr hno)).1 (show ¬EXIT_FAILURE < 0 by decide)

end Grants

/-- **For every queue, caller, PID and set of permissions**: granting and revoking do what they say if and only if
the caller lacks `PPERM_PERM`, or there is a process with the PID. -/
theorem perms_right_iff {k : Kernel} {l : List ℕ} (hl : k.Linked l) (pid : PID_T) (perms : PPERM_T) :
    PermsRight k pid perms ↔ k.current.holds PPERM_PERM = false ∨ HasPid k pid := by
  cases hh : k.current.holds PPERM_PERM with
  | false =>
    have hdenied : ∀ missing f, perm_change missing f k pid = .ok (-EPERM, k) := fun missing f => by
      rw [perm_change, hh]
      rfl
    exact iff_of_true ⟨_, _, hdenied _ _, hdenied _ _, .of_refused (by decide) (.inl hh),
      .of_refused (by decide) (.inl hh), fun h => absurd h (show (-EPERM : ERRNO_T) ≠ EXIT_SUCCESS by decide)⟩ (.inl rfl)
  | true =>
    cases hf : found k l pid with
    | none =>
      have hno := found_none hl hf
      refine iff_of_false (not_permsRight hl hh hno perms) ?_
      rintro (h | h)
      · cases h
      · exact hno h
    | some p =>
      obtain ⟨hlive, hpid⟩ := found_some hl hf
      rw [PermsRight, perm_grant, perm_revoke, perm_change_eq hl _ _ _ hh, perm_change_eq hl _ _ _ hh, hf]
      refine iff_of_true ⟨_, _, rfl, rfl, .of_done hh hlive hpid, .of_done hh hlive hpid, fun _ => ?_⟩
        (.inr ⟨p, hlive, hpid⟩)
      have hboth := perm_change_eq hl.setMask (-EXIT_FAILURE) (· &&& ~~~perms) pid (holds_setMask (p := p) perms hh)
      rw [found_setMask, hf] at hboth
      refine ⟨_, hboth, rfl, p, hlive, hpid, ?_, fun q hq => ?_⟩
      · rw [Kernel.setMask_perm_mask, if_pos rfl, Kernel.setMask_perm_mask, if_pos rfl]
        exact or_and_not _ _
      · rw [Kernel.setMask_perm_mask, if_neg hq, Kernel.setMask_perm_mask, if_neg hq]

/-- The first process, which has all permissions, and two that it spawned. -/
theorem start_three : ∃ k, k.Linked k.queue ∧ k.queue.length = 3 ∧ k.current.holds PPERM_PERM = true ∧
    HasPid k 2 ∧ HasPid k 3 ∧ ¬HasPid k 7 := by
  obtain ⟨es, k, h, hb⟩ := traces_true Always
    (fun k => decide (k.queue.length = 3 ∧ k.current.holds PPERM_PERM = true ∧ HasPid k 2 ∧ HasPid k 3 ∧ ¬HasPid k 7))
    [.initrd_spawn [65] 0 1, .initrd_spawn [65] PPERM_CONSOLE 1] (by decide +kernel)
  exact ⟨k, h.wellFormed.linked, of_decide_eq_true hb⟩

/-- It grants and revokes permissions of the one in the middle of the queue and of the last. -/
theorem perms_right_three : ∃ k, k.queue.length = 3 ∧ k.current.holds PPERM_PERM = true ∧
    PermsRight k 2 (PPERM_CONSOLE ||| PPERM_INITRD) ∧ PermsRight k 3 PPERM_PERM := by
  obtain ⟨k, hl, hlen, hh, h2, h3, -⟩ := start_three
  exact ⟨k, hlen, hh, (perms_right_iff hl 2 _).2 (.inr h2), (perms_right_iff hl 3 _).2 (.inr h3)⟩

/-- It names a process that does not exist, and gets no negative number. -/
theorem not_perms_right : ¬∀ (k : Kernel) (l : List ℕ) (pid : PID_T) (perms : PPERM_T), k.Linked l →
    PermsRight k pid perms := by
  intro h
  obtain ⟨k, hl, -, hh, -, -, hno⟩ := start_three
  exact not_permsRight hl hh hno 8 (h k _ 7 8 hl)

end Iridium
