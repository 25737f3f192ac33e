import Iridium.Proc.Devices

/-!
# Who owns a driver

A driver is claimed twice: in `drivertypes`, which refuses every further claim, and in the slave
driver groups of the process, which `verify_drvmaster` searches. A new process has no groups,
also when it is a signal handler, so a driver has one master at most (`drivers_exclusive`).
Nobody gives a driver back: `drivertypes` says that it was claimed, and stays as it is when the
process that claimed it leaves the queue (`drivers_claimed_for_good`).
-/

namespace Iridium

/-- The process at `p`, when it runs, passes `verify_drvmaster`. -/
def Masters (k : Kernel) (p : ℕ) (driver_type : UInt32) : Prop :=
  verify_drvmaster { k with current_task := p } driver_type = EXIT_SUCCESS

instance (k : Kernel) (p : ℕ) (driver_type : UInt32) : Decidable (Masters k p driver_type) :=
  inferInstanceAs (Decidable (_ = _))

/-- The process at `p` has claimed the driver: a call of `drv_claim` that it made, holding
`PPERM_DRVCLAIM`, has returned `EXIT_SUCCESS`. -/
def Claims (es : List Entry) (p : ℕ) (driver_type : UInt32) : Prop :=
  ∃ k, (k, .drv_claim driver_type, ofInt16 EXIT_SUCCESS) ∈ es ∧ k.current_task = p ∧
    k.current.holds PPERM_DRVCLAIM = true

section Masters

variable {k k' : Kernel} {p : ℕ} {driver_type : UInt32}

theorem masters_iff : Masters k p driver_type ↔
    ∃ i < (k.procs p).n_slave_driver_groups.toNat,
      (k.procs p).slave_driver_groups (UInt16.ofNat i) = driver_type := by
  have hown : Masters k p driver_type ↔ owns { k with current_task := p } driver_type = true := by
    unfold Masters verify_drvmaster
    split
    next h => simp [h]
    next h => exact ⟨fun he => absurd he (by decide), fun ho => absurd ho h⟩
  rw [hown]
  simp [owns, Kernel.current]

/-- A process without groups owns nothing. -/
theorem not_masters (h : (k.procs p).n_slave_driver_groups = 0) : ¬Masters k p driver_type := by
  rw [masters_iff, h]
  rintro ⟨i, hi, -⟩
  exact absurd hi (by simp)

theorem Kernel.SameDrivers.masters_iff (h : k.SameDrivers k') (hp : p ≤ k.frontier) :
    Masters k' p driver_type ↔ Masters k p driver_type := by
  rw [Iridium.masters_iff, Iridium.masters_iff, h.n_groups p hp, h.groups p hp]

/-- The state after a claim that is made. -/
def claimed (k : Kernel) (driver_type : UInt32) : Kernel :=
  { k with drivertypes := Function.update k.drivertypes (driver_type - 1) 1 }.modify k.current_task
    fun q => { q with
      slave_driver_groups := Function.update q.slave_driver_groups q.n_slave_driver_groups driver_type
      n_slave_driver_groups := q.n_slave_driver_groups + 1 }

/-- **A claim** is refused and changes nothing, or is made. -/
theorem drv_claim_cases (k : Kernel) (driver_type : UInt32) :
    ((drv_claim k driver_type).1 ≠ EXIT_SUCCESS ∧ (drv_claim k driver_type).2 = k) ∨
      (driver_type - 1 < DRIVERTYPE_COUNT ∧ k.drivertypes (driver_type - 1) = 0 ∧
        k.current.n_slave_driver_groups ≠ DRVMASTER_MAX_SLAVES - 1 ∧
        k.current.holds PPERM_DRVCLAIM = true ∧
        drv_claim k driver_type = (EXIT_SUCCESS, claimed k driver_type)) := by
  unfold drv_claim
  split
  · exact .inl ⟨show (-EXIT_FAILURE : ERRNO_T) ≠ EXIT_SUCCESS by decide, rfl⟩
  next h₁ =>
  split
  · exact .inl ⟨show (-EDRVCLAIMED : ERRNO_T) ≠ EXIT_SUCCESS by decide, rfl⟩
  next h₂ =>
  split
  · exact .inl ⟨show (-EXIT_FAILURE : ERRNO_T) ≠ EXIT_SUCCESS by decide, rfl⟩
  split
  · exact .inl ⟨show (-ENOBUFS : ERRNO_T) ≠ EXIT_SUCCESS by decide, rfl⟩
  next h₄ =>
  split
  · exact .inl ⟨show (-EPERM : ERRNO_T) ≠ EXIT_SUCCESS by decide, rfl⟩
  next h₅ => exact .inr ⟨UInt32.not_le.1 h₁, by simpa using h₂, h₄, by simpa using h₅, rfl⟩

/-- What is refused is answered otherwise. -/
theorem ofInt16_ne {e : ERRNO_T} (h : e ≠ EXIT_SUCCESS) : ofInt16 e ≠ ofInt16 EXIT_SUCCESS := by
  intro he
  apply h
  have h64 : e.toInt64 = (EXIT_SUCCESS : ERRNO_T).toInt64 := by
    have := congrArg UInt64.toInt64 he
    simpa [ofInt16] using this
  rw [← Int16.toInt_inj, ← Int16.toInt_toInt64 e, h64, Int16.toInt_toInt64]

/-- After a claim the running process owns one driver more. -/
theorem masters_claimed {t : UInt32} (hn : k.current.n_slave_driver_groups.toNat < 24) :
    Masters (claimed k driver_type) p t ↔ Masters k p t ∨ (p = k.current_task ∧ t = driver_type) := by
  rw [masters_iff, masters_iff]
  by_cases hp : p = k.current_task
  · subst hp
    have hproc : (claimed k driver_type).procs k.current_task =
        { k.current with
          slave_driver_groups :=
            Function.update k.current.slave_driver_groups k.current.n_slave_driver_groups driver_type
          n_slave_driver_groups := k.current.n_slave_driver_groups + 1 } := by
      simp [claimed, Kernel.modify, Kernel.current]
    rw [hproc]
    show (∃ i < (k.current.n_slave_driver_groups + 1).toNat, Function.update k.current.slave_driver_groups
      k.current.n_slave_driver_groups driver_type (UInt16.ofNat i) = t) ↔
      (∃ i < k.current.n_slave_driver_groups.toNat, k.current.slave_driver_groups (UInt16.ofNat i) = t) ∨ _
    generalize k.current.n_slave_driver_groups = n at hn
    generalize k.current.slave_driver_groups = g
    have hsucc : (n + 1).toNat = n.toNat + 1 := by
      rw [UInt16.toNat_add]
      simp
      omega
    have hlast : UInt16.ofNat n.toNat = n := UInt16.ofNat_toNat
    have hold : ∀ i < n.toNat, UInt16.ofNat i ≠ n := by
      intro i hi he
      have := congrArg UInt16.toNat he
      simp at this
      omega
    rw [hsucc]
    constructor
    · rintro ⟨i, hi, he⟩
      rcases Nat.lt_succ_iff_lt_or_eq.1 hi with hi | rfl
      · rw [Function.update_of_ne (hold i hi)] at he
        exact .inl ⟨i, hi, he⟩
      · rw [hlast, Function.update_self] at he
        exact .inr ⟨rfl, he.symm⟩
    · rintro (⟨i, hi, he⟩ | ⟨-, rfl⟩)
      · exact ⟨i, by omega, by rwa [Function.update_of_ne (hold i hi)]⟩
      · exact ⟨n.toNat, by omega, by rw [hlast, Function.update_self]⟩
  · have hproc : (claimed k driver_type).procs p = k.procs p := by simp [claimed, Kernel.modify, hp]
    rw [hproc]
    simp [hp]

end Masters

/-! ### The invariant -/

/-- **Who owns what**, after the entries `es`. -/
structure Owned (es : List Entry) (k : Kernel) : Prop where
  few : ∀ p, k.Live p → (k.procs p).n_slave_driver_groups.toNat ≤ 24
  claims : ∀ p t, k.Live p → Masters k p t → Claims es p t
  once : ∀ p q t, Claims es p t → Claims es q t → p = q
  taken : ∀ t, k.drivertypes (t - 1) ≠ 0 ↔ ∃ p, Claims es p t
  keeps : ∀ p t, Claims es p t → p ≤ k.frontier ∧ (k.Live p → Masters k p t)
  valid : ∀ p t, Claims es p t → t - 1 < DRIVERTYPE_COUNT

section Owned

variable {k k' : Kernel} {a : Action} {o : UInt64} {es : List Entry}

theorem claims_snoc {p : ℕ} {t : UInt32} : Claims (es ++ [(k, a, o)]) p t ↔ Claims es p t ∨
    (k.current_task = p ∧ k.current.holds PPERM_DRVCLAIM = true ∧ a = .drv_claim t ∧
      o = ofInt16 EXIT_SUCCESS) := by
  constructor
  · rintro ⟨k₁, hm, hp, hh⟩
    rcases List.mem_append.1 hm with hm | hm
    · exact .inl ⟨k₁, hm, hp, hh⟩
    · obtain ⟨rfl, rfl, rfl⟩ : k₁ = k ∧ .drv_claim t = a ∧ ofInt16 EXIT_SUCCESS = o := by simpa using hm
      exact .inr ⟨hp, hh, rfl, rfl⟩
  · rintro (⟨k₁, hm, hp, hh⟩ | ⟨hp, hh, rfl, rfl⟩)
    · exact ⟨k₁, List.mem_append_left _ hm, hp, hh⟩
    · exact ⟨k, by simp, hp, hh⟩

/-- An entry that is no claim, or a claim that is refused. -/
theorem claims_snoc_of_ne (h : ∀ t, a = .drv_claim t → o ≠ ofInt16 EXIT_SUCCESS) {p : ℕ} {t : UInt32} :
    Claims (es ++ [(k, a, o)]) p t ↔ Claims es p t := by
  rw [claims_snoc]
  exact or_iff_left fun ⟨_, _, ha, ho⟩ => h t ha ho

/-- Drivers that belong to who they belonged to. -/
theorem Owned.same (hw : k.WellFormed) (h : Owned es k) (hE : Effect k a o k') (hd : k.SameDrivers k')
    (ha : ∀ t, a = .drv_claim t → o ≠ ofInt16 EXIT_SUCCESS) : Owned (es ++ [(k, a, o)]) k' := by
  have hnew : ∀ p, ¬k.Live p → k'.Live p → (k'.procs p).n_slave_driver_groups = 0 := fun p hn hl =>
    (created_ready hw hE hn hl).1
  have hcl : ∀ {p t}, Claims (es ++ [(k, a, o)]) p t ↔ Claims es p t := claims_snoc_of_ne ha
  refine ⟨fun p hl => ?_, fun p t hl hm => ?_, fun p q t hp hq => ?_, fun t => ?_, fun p t hc => ?_,
    fun p t hc => h.valid p t (hcl.1 hc)⟩
  · by_cases hold : k.Live p
    · rw [hd.n_groups p (hw.le hold)]
      exact h.few p hold
    · rw [hnew p hold hl]
      decide
  · by_cases hold : k.Live p
    · exact hcl.2 (h.claims p t hold ((hd.masters_iff (hw.le hold)).1 hm))
    · exact absurd hm (not_masters (hnew p hold hl))
  · exact h.once p q t (hcl.1 hp) (hcl.1 hq)
  · rw [hd.drivertypes, h.taken]
    simp only [hcl]
  · obtain ⟨hle, hk⟩ := h.keeps p t (hcl.1 hc)
    refine ⟨hle.trans (frontier_le hE), fun hl => (hd.masters_iff hle).2 (hk ?_)⟩
    -- a process that comes into the queue lies beyond all that were there
    by_contra hn
    rcases created hw hE hn hl with hf | hf
    · exact absurd hle (Nat.not_le.2 hf.fresh)
    · exact absurd hle (Nat.not_le.2 hf.fresh)

/-- A claim that is made. -/
theorem Owned.claimed {t : UInt32} (hw : k.WellFormed) (h : Owned es k) (hs : k.spinning = false)
    (hv : t - 1 < DRIVERTYPE_COUNT) (h0 : k.drivertypes (t - 1) = 0)
    (hn : k.current.n_slave_driver_groups ≠ DRVMASTER_MAX_SLAVES - 1)
    (hh : k.current.holds PPERM_DRVCLAIM = true)
    (hc : drv_claim k t = (EXIT_SUCCESS, Iridium.claimed k t)) :
    Owned (es ++ [(k, .drv_claim t, ofInt16 EXIT_SUCCESS)]) (Iridium.claimed k t) := by
  have hlive := hw.running hs
  have hlt : k.current.n_slave_driver_groups.toNat < 24 := by
    have h24 : k.current.n_slave_driver_groups.toNat ≠ 24 := fun he => hn (UInt16.toNat_inj.1 he)
    have : k.current.n_slave_driver_groups.toNat ≤ 24 := h.few _ hlive
    omega
  have hfree : ∀ p, ¬Claims es p t := fun p hc => (h.taken t).2 ⟨p, hc⟩ h0
  have hmast : ∀ p u, Masters (Iridium.claimed k t) p u ↔ Masters k p u ∨ (p = k.current_task ∧ u = t) :=
    fun p u => masters_claimed hlt
  have hquiet := drv_claim_quiet k t
  rw [hc] at hquiet
  have hsame : k.SameLinks (Iridium.claimed k t) := hquiet.sameLinks
  have hl : ∀ p, (Iridium.claimed k t).Live p ↔ k.Live p := fun p => hsame.live
  have hcl : ∀ {p u}, Claims (es ++ [(k, .drv_claim t, ofInt16 EXIT_SUCCESS)]) p u ↔
      Claims es p u ∨ (p = k.current_task ∧ u = t) := by
    intro p u
    rw [claims_snoc]
    constructor
    · rintro (hc | ⟨rfl, -, hu, -⟩)
      · exact .inl hc
      · exact .inr ⟨rfl, by simpa using hu.symm⟩
    · rintro (hc | ⟨rfl, rfl⟩)
      · exact .inl hc
      · exact .inr ⟨rfl, hh, rfl, rfl⟩
  refine ⟨fun p hp => ?_, fun p u hp hm => ?_, fun p q u hp hq => ?_, fun u => ?_, fun p u hc => ?_,
    fun p u hc => ?_⟩
  · by_cases he : p = k.current_task
    · subst he
      have : ((Iridium.claimed k t).procs k.current_task).n_slave_driver_groups =
          k.current.n_slave_driver_groups + 1 := by
        simp [Iridium.claimed, Kernel.modify, Kernel.current]
      rw [this, UInt16.toNat_add]
      simp
      omega
    · have : (Iridium.claimed k t).procs p = k.procs p := by simp [Iridium.claimed, Kernel.modify, he]
      rw [this]
      exact h.few p ((hl p).1 hp)
  · rw [hcl]
    exact ((hmast p u).1 hm).imp_left (h.claims p u ((hl p).1 hp))
  · by_cases hu : u = t
    · rw [hu] at hp hq
      exact ((hcl.1 hp).resolve_left (hfree p)).1.trans ((hcl.1 hq).resolve_left (hfree q)).1.symm
    · refine h.once p q u ((hcl.1 hp).resolve_right fun h => hu h.2) ?_
      exact (hcl.1 hq).resolve_right fun h => hu h.2
  · show Function.update k.drivertypes (t - 1) 1 (u - 1) ≠ 0 ↔ _
    by_cases hu : u = t
    · subst hu
      rw [Function.update_self]
      exact ⟨fun _ => ⟨_, hcl.2 (.inr ⟨rfl, rfl⟩)⟩, fun _ => by decide⟩
    · have hne : u - 1 ≠ t - 1 := fun he => hu (by simpa using he)
      rw [Function.update_of_ne hne, h.taken]
      simp only [hcl, hu, and_false, or_false]
  · refine ⟨?_, fun hp => ?_⟩
    · rw [hsame.frontier]
      rcases hcl.1 hc with hc | ⟨rfl, -⟩
      · exact (h.keeps p u hc).1
      · exact hw.current_le
    · rw [hmast]
      exact (hcl.1 hc).imp_left fun hc => (h.keeps p u hc).2 ((hl p).1 hp)
  · rcases hcl.1 hc with hc | ⟨-, rfl⟩
    · exact h.valid p u hc
    · exact hv

theorem sysreq_sameDrivers {service_num : UInt32} {request : UInt64}
    {r : UAPI_STATUS_T × Option UInt64 × Kernel} (h : sysreq k service_num request = .ok r) :
    k.SameDrivers r.2.2 := by
  unfold sysreq at h
  split at h
  · obtain rfl := Except.ok.inj h
    unfold keyboard_uapi
    split <;> exact ⟨rfl, fun _ _ => rfl, fun _ _ => rfl⟩
  split at h
  · obtain ⟨⟨status, screen, fb⟩, -, h⟩ := bind_ok.1 h
    obtain rfl := pure_ok.1 h
    exact ⟨rfl, fun _ _ => rfl, fun _ _ => rfl⟩
  split at h
  · obtain rfl := Except.ok.inj h
    unfold procinfo_uapi
    split <;> exact ⟨rfl, fun _ _ => rfl, fun _ _ => rfl⟩
  · obtain rfl := Except.ok.inj h
    exact ⟨rfl, fun _ _ => rfl, fun _ _ => rfl⟩

/-- Only a claim changes who owns a driver. -/
theorem Devices.sameDrivers (hD : Devices k a o k') (ha : ∀ t, a ≠ .drv_claim t) : k.SameDrivers k' := by
  cases hD with
  | claim => exact absurd rfl (ha _)
  | request h => exact sysreq_sameDrivers h
  | print => exact ⟨rfl, fun _ _ => rfl, fun _ _ => rfl⟩
  | other _ hd => exact hd.toSameDrivers

/-- **A step** keeps the record of who owns what. -/
theorem Owned.step (hw : k.WellFormed) (h : Owned es k) (hS : Step k (a, o) k') :
    Owned (es ++ [(k, a, o)]) k' := by
  have hE := hS.effect hw
  have hD := act_devices hw hS.1 hS.2
  by_cases ha : ∃ t, a = .drv_claim t
  · obtain ⟨t, rfl⟩ := ha
    have hs := hS.1.runs rfl
    cases hD with
    | other hu => cases hu
    | claim =>
      rcases drv_claim_cases k t with ⟨hne, heq⟩ | ⟨hv, h0, hn, hh, heq⟩
      · refine h.same hw hE ?_ fun _ _ => ofInt16_ne hne
        rw [heq]
        exact ⟨rfl, fun _ _ => rfl, fun _ _ => rfl⟩
      · rw [heq]
        exact h.claimed hw hs hv h0 hn hh heq
  · have hne : ∀ t, a ≠ .drv_claim t := fun t he => ha ⟨t, he⟩
    exact h.same hw hE (hD.sameDrivers hne) fun t he => absurd he (hne t)

theorem Undriven.owned (hb : Booted k) (hu : Undriven k) : Owned [] k := by
  have hno : ∀ p t, ¬Claims [] p t := fun p t ⟨_, hm, _⟩ => by simp at hm
  refine ⟨fun p hl => ?_, fun p t hl hm => ?_, fun p q t hc => absurd hc (hno p t), fun t => ?_,
    fun p t hc => absurd hc (hno p t), fun p t hc => absurd hc (hno p t)⟩
  · rw [hb.live_eq hl]
    exact (congrArg UInt16.toNat hu.n_groups).trans_le (by decide)
  · rw [hb.live_eq hl] at hm
    exact absurd hm (not_masters hu.n_groups)
  · rw [hu.drivertypes]
    exact ⟨fun h => absurd rfl h, fun ⟨p, hc⟩ => absurd hc (hno p t)⟩

end Owned

/-! ### Results -/

theorem owned {k₀ k : Kernel} {es : List Entry} (h₀ : Started k₀)
    (h : Lib.Run Logged (fun k e => Always k e.2) k₀ es k) : k.WellFormed ∧ Owned es k := by
  obtain ⟨hw, hb⟩ := h₀.booted
  exact h.history (I := fun es k => k.WellFormed ∧ Owned es k) ⟨hw, h₀.undriven.owned hb⟩
    fun {es t u e} hI _ hS => by
      obtain ⟨rfl, hS⟩ := hS
      exact ⟨hS.wellFormed hI.1, hI.2.step hI.1 hS⟩

/-- **A driver has one master at most**, who has claimed it, and a claim that is refused changes
nothing. -/
structure Exclusive (es : List Entry) (k : Kernel) : Prop where
  sole : ∀ p q t, k.Live p → k.Live q → Masters k p t → Masters k q t → p = q
  claimed : ∀ p t, k.Live p → Masters k p t → Claims es p t
  few : ∀ p, k.Live p → (k.procs p).n_slave_driver_groups ≤ DRVMASTER_MAX_SLAVES
  error : ∀ t, (drv_claim k t).1 ≠ EXIT_SUCCESS → (drv_claim k t).2 = k

/-- **In every run** the drivers are exclusive. -/
theorem drivers_exclusive {k₀ k : Kernel} {es : List Entry} (h₀ : Started k₀)
    (h : Lib.Run Logged (fun k e => Always k e.2) k₀ es k) : Exclusive es k := by
  obtain ⟨-, ho⟩ := owned h₀ h
  refine ⟨fun p q t hp hq hmp hmq => ?_, ho.claims, fun p hp => ?_, fun t hne => ?_⟩
  · exact ho.once p q t (ho.claims p t hp hmp) (ho.claims q t hq hmq)
  · rw [UInt16.le_iff_toNat_le]
    exact (ho.few p hp).trans (by decide)
  · rcases drv_claim_cases k t with ⟨-, heq⟩ | ⟨-, -, -, -, heq⟩
    · exact heq
    · rw [heq] at hne
      exact absurd rfl hne

/-- The first process claims the display, and is its master. -/
theorem drivers_exclusive_claimed : ∃ k₀ es k, Started k₀ ∧
    Lib.Run Logged (fun k e => Always k e.2) k₀ es k ∧ Masters k k.current_task DRIVERTYPE_DISPLAY ∧
      Exclusive es k := by
  obtain ⟨es, k, ⟨k₀, h₀, h⟩, hn⟩ := traces_true Always
    (fun k => decide (Masters k k.current_task DRIVERTYPE_DISPLAY))
    [.initrd_spawn [65] 0 1, .drv_claim 1, .drv_claim 1] (by decide +kernel)
  obtain ⟨fs, hr, -⟩ := logged h
  exact ⟨k₀, fs, k, h₀, hr, of_decide_eq_true hn, drivers_exclusive h₀ hr⟩

/-- **A claim is for good**: a driver counts as claimed when a process has claimed it, whether
that process is still there or not. While it is, it is the master; and every further claim is
refused. -/
structure ClaimedForGood (es : List Entry) (k : Kernel) : Prop where
  taken : ∀ t, k.drivertypes (t - 1) ≠ 0 ↔ ∃ p, Claims es p t
  masters : ∀ p t, k.Live p → (Masters k p t ↔ Claims es p t)
  refused : ∀ p t, Claims es p t → drv_claim k t = (-EDRVCLAIMED, k)

/-- **In every run** a claim is for good. -/
theorem drivers_claimed_for_good {k₀ k : Kernel} {es : List Entry} (h₀ : Started k₀)
    (h : Lib.Run Logged (fun k e => Always k e.2) k₀ es k) : ClaimedForGood es k := by
  obtain ⟨-, ho⟩ := owned h₀ h
  refine ⟨ho.taken, fun p t hp => ⟨ho.claims p t hp, fun hc => (ho.keeps p t hc).2 hp⟩,
    fun p t hc => ?_⟩
  have ht : k.drivertypes (t - 1) ≠ 0 := (ho.taken t).2 ⟨p, hc⟩
  unfold drv_claim
  rw [if_neg (UInt32.not_le.2 (ho.valid p t hc)), if_pos ht]

/-- A process is given `PPERM_DRVCLAIM`, claims the display and exits: nobody can claim it any
more. -/
theorem drivers_claimed_for_good_exited : ∃ k₀ es k, Started k₀ ∧
    Lib.Run Logged (fun k e => Always k e.2) k₀ es k ∧ k.drivertypes 0 ≠ 0 ∧
      drv_claim k DRIVERTYPE_DISPLAY = (-EDRVCLAIMED, k) := by
  obtain ⟨es, k, ⟨k₀, h₀, h⟩, hn⟩ := traces_true Always (fun k => decide (k.drivertypes 0 ≠ 0))
    [.initrd_spawn [65] PPERM_DRVCLAIM 1, .timer quietTick, .drv_claim 1, .exit, .timer quietTick]
    (by decide +kernel)
  obtain ⟨fs, hr, -⟩ := logged h
  have hg := drivers_claimed_for_good h₀ hr
  have ht : k.drivertypes (DRIVERTYPE_DISPLAY - 1) ≠ 0 := of_decide_eq_true hn
  obtain ⟨p, hc⟩ := (hg.taken _).1 ht
  exact ⟨k₀, fs, k, h₀, hr, ht, hg.refused p _ hc⟩

/-- Then the driver is claimed and has no master. -/
theorem drivers_not_released : ¬∀ k, Reachable k → ∀ t, t - 1 < DRIVERTYPE_COUNT →
    (k.drivertypes (t - 1) ≠ 0 ↔ ∃ p, k.Live p ∧ Masters k p t) := by
  obtain ⟨es, k, h, hn⟩ := traces_true Always
    (fun k => decide (k.drivertypes 0 ≠ 0) && k.queue.all fun p => decide ¬Masters k p DRIVERTYPE_DISPLAY)
    [.initrd_spawn [65] PPERM_DRVCLAIM 1, .timer quietTick, .drv_claim 1, .exit] (by decide +kernel)
  rw [Bool.and_eq_true, decide_eq_true_eq] at hn
  intro hall
  obtain ⟨p, hp, hm⟩ := (hall k ⟨es, h⟩ DRIVERTYPE_DISPLAY (by decide)).1 hn.1
  exact of_decide_eq_true (List.all_eq_true.1 hn.2 p hp) hm

end Iridium
