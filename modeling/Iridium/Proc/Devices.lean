import Iridium.Proc.Effect

/-!
# What an action does to the devices

The claim table, the slave driver groups of the processes, the screen service and the console
are changed by three actions: a claim, a request to a service, and a string written. `Devices`
says so, as `Effect` does for the queue and the signals.
-/

namespace Iridium

/-- The drivers belong to who they belonged to. -/
structure Kernel.SameDrivers (k k' : Kernel) : Prop where
  drivertypes : k'.drivertypes = k.drivertypes
  n_groups : ∀ r ≤ k.frontier, (k'.procs r).n_slave_driver_groups = (k.procs r).n_slave_driver_groups
  groups : ∀ r ≤ k.frontier, (k'.procs r).slave_driver_groups = (k.procs r).slave_driver_groups

/-- The devices are as they were. -/
structure Kernel.SameDevices (k k' : Kernel) : Prop extends k.SameDrivers k' where
  screen : k'.screen = k.screen
  console : k'.console = k.console

/-- The actions that use a device. -/
def Action.usesDevices : Action → Bool
  | .drv_claim _ | .sysreq _ _ _ | .con_out _ _ => true
  | _ => false

/-- **What an action does to the devices**, and what it answers. -/
inductive Devices (k : Kernel) : Action → UInt64 → Kernel → Prop where
  /-- A driver is claimed, or refused. -/
  | claim {driver_type : UInt32} :
      Devices k (.drv_claim driver_type) (ofInt16 (drv_claim k driver_type).1) (drv_claim k driver_type).2
  /-- A service is asked. -/
  | request {service_num : UInt32} {request uninit : UInt64} {status : UAPI_STATUS_T}
      {output : Option UInt64} {k' : Kernel} : sysreq k service_num request = .ok (status, output, k') →
      Devices k (.sysreq service_num request uninit) (output.getD uninit) k'
  /-- A string is written. -/
  | print {string : List UInt8} {color : UInt32} {console : Console} :
      write_string k.console color string = .ok console →
      Devices k (.con_out string color) 0 { k with console }
  /-- Nothing. -/
  | other {a : Action} {o : UInt64} {k' : Kernel} : a.usesDevices = false → k.SameDevices k' →
      Devices k a o k'

section Devices

variable {k k' : Kernel} {a : Action} {o : UInt64}

theorem Kernel.SameDevices.refl (k : Kernel) : k.SameDevices k :=
  ⟨⟨rfl, fun _ _ => rfl, fun _ _ => rfl⟩, rfl, rfl⟩

/-- A descriptor changed, but for its drivers. -/
theorem Kernel.sameDevices_modify {p : ℕ} {f : Process → Process}
    (hf : ∀ q, (f q).n_slave_driver_groups = q.n_slave_driver_groups ∧
      (f q).slave_driver_groups = q.slave_driver_groups) : k.SameDevices (k.modify p f) := by
  refine ⟨⟨rfl, fun r _ => ?_, fun r _ => ?_⟩, rfl, rfl⟩
  · by_cases hr : r = p
    · subst hr
      simpa [modify] using (hf _).1
    · simp [modify, hr]
  · by_cases hr : r = p
    · subst hr
      simpa [modify] using (hf _).2
    · simp [modify, hr]

/-- A new process. -/
theorem Kernel.sameDevices_link {rip : UInt64} {path : List UInt8} {p : ℕ} {ctx : ℕ → UInt64} {mm : Mm}
    {q : Process} (hs : Spawned k rip path p ctx mm) : k.SameDevices (k.link p q mm) := by
  refine ⟨⟨rfl, fun r hr => ?_, fun r hr => ?_⟩, rfl, rfl⟩
  · rw [Kernel.link_procs (Kernel.fresh_ne hs hr)]
  · rw [Kernel.link_procs (Kernel.fresh_ne hs hr)]

theorem Kernel.SameDevices.trans {k'' : Kernel} (h₁ : k.SameDevices k') (hf : k.frontier ≤ k'.frontier)
    (h₂ : k'.SameDevices k'') : k.SameDevices k'' :=
  ⟨⟨h₂.drivertypes.trans h₁.drivertypes,
    fun r hr => (h₂.n_groups r (hr.trans hf)).trans (h₁.n_groups r hr),
    fun r hr => (h₂.groups r (hr.trans hf)).trans (h₁.groups r hr)⟩,
    h₂.screen.trans h₁.screen, h₂.console.trans h₁.console⟩

/-- A signal, and its callback. -/
theorem Sent.sameDevices {l : List ℕ} {dest : PID_T} {dword : UInt32} {e : ERRNO_T}
    (hs : Sent k l dest dword e k') : k.SameDevices k' := by
  have hd : ∀ p, k.SameDevices (deliver k p dword) := fun p => Kernel.sameDevices_modify fun _ => ⟨rfl, rfl⟩
  cases hs with
  | unknown => exact .refl k
  | refused => exact .refl k
  | queued => exact hd _
  | handled _ _ _ hs => exact (hd _).trans (Nat.le_refl _) (Kernel.sameDevices_link hs)

/-- A process killed. -/
theorem Kernel.sameDevices_killed (hw : k.WellFormed) (hl : k.Live k.current_task)
    (hr : refused k k.current.pid = false) (pmm : Pmm) : k.SameDevices (killed k k.current_task pmm) := by
  have hne := hw.linked.ring.prev_ne hl (hw.ne_base hr)
  have hrest : (Iridium.killed k k.current_task pmm).drivertypes = k.drivertypes ∧
      (Iridium.killed k k.current_task pmm).screen = k.screen ∧
      (Iridium.killed k k.current_task pmm).console = k.console := by
    unfold Iridium.killed
    rw [unlink_eq]
    exact ⟨rfl, rfl, rfl⟩
  exact ⟨⟨hrest.1, fun r _ => by rw [killed_procs hne], fun r _ => by rw [killed_procs hne]⟩,
    hrest.2.1, hrest.2.2⟩

theorem exit_sameDevices (hw : k.WellFormed) (hs : k.spinning = false) (h : exit k = .ok k') :
    k.SameDevices k' := by
  rcases exit_ok hw.linked hw.init (hw.running hs) h with ⟨-, rfl⟩ | ⟨hr, -, pmm, -, rfl⟩
  · exact .refl _
  · exact Kernel.sameDevices_killed hw (hw.running hs) hr pmm

/-- **Every action that returns** does to the devices what `Devices` says. -/
theorem act_devices (hw : k.WellFormed) (he : Enabled k a) (h : act k a = .ok (o, k')) :
    Devices k a o k' := by
  cases a with
  | drv_claim driver_type =>
    obtain ⟨rfl, rfl⟩ := Prod.mk.inj (Except.ok.inj h)
    exact .claim
  | sysreq service_num request uninit =>
    obtain ⟨⟨status, output, k₁⟩, h₁, h⟩ := bind_ok.1 h
    obtain ⟨rfl, rfl⟩ := Prod.mk.inj (pure_ok.1 h)
    exact .request h₁
  | con_out string color =>
    obtain ⟨console, h₁, h⟩ := bind_ok.1 h
    obtain ⟨rfl, rfl⟩ := Prod.mk.inj (pure_ok.1 h)
    exact .print h₁
  | initrd_spawn path permissions uses_console =>
    refine .other rfl ?_
    obtain ⟨⟨pid, k₁⟩, h₁, h⟩ := bind_ok.1 h
    obtain ⟨rfl, rfl⟩ := Prod.mk.inj (pure_ok.1 h)
    rcases _initrd_spawn_ok hw.linked hw.heap h₁ with ⟨-, -, rfl⟩ | ⟨-, -, p, ctx, mm, hs, rfl⟩
    · exact .refl _
    · exact Kernel.sameDevices_link hs
  | psignal_send dest dword =>
    refine .other rfl ?_
    obtain ⟨⟨e, k₁⟩, h₁, h⟩ := bind_ok.1 h
    obtain ⟨rfl, rfl⟩ := Prod.mk.inj (pure_ok.1 h)
    exact (psignal_send_ok hw.linked hw.heap h₁).sameDevices
  | psignal_read =>
    refine .other rfl ?_
    have hk : k' = (psignal_read k).2 := ((Prod.mk.inj (Except.ok.inj h)).2).symm
    rw [hk, psignal_read_eq]
    split
    · exact Kernel.sameDevices_modify (f := fun q => { q with sigq := q.sigq.unlock }) fun _ => ⟨rfl, rfl⟩
    · exact Kernel.sameDevices_modify (f := fun q => { q with sigq := q.sigq.unlock.pop }) fun _ => ⟨rfl, rfl⟩
  | psignal_hook callback =>
    refine .other rfl ?_
    obtain ⟨rfl, rfl⟩ := Prod.mk.inj (Except.ok.inj h)
    exact Kernel.sameDevices_modify fun _ => ⟨rfl, rfl⟩
  | exit =>
    refine .other rfl ?_
    obtain ⟨k₁, h₁, h⟩ := bind_ok.1 h
    obtain ⟨-, rfl⟩ := Prod.mk.inj (pure_ok.1 h)
    exact exit_sameDevices hw (he.runs rfl) h₁
  | fault =>
    refine .other rfl ?_
    obtain ⟨k₁, h₁, h⟩ := bind_ok.1 h
    obtain ⟨-, rfl⟩ := Prod.mk.inj (pure_ok.1 h)
    unfold handle_exception at h₁
    split at h₁
    · cases h₁
    · exact exit_sameDevices hw (he.runs rfl) h₁
  | timer t =>
    refine .other rfl ?_
    obtain ⟨rfl, rfl⟩ := Prod.mk.inj (Except.ok.inj h)
    refine ⟨⟨?_, fun r _ => ?_, fun r _ => ?_⟩, ?_, ?_⟩
    · rw [irq0_isr_fst]
      rfl
    · rw [irq0_isr_procs]
    · rw [irq0_isr_procs]
    · rw [irq0_isr_fst]
      rfl
    · rw [irq0_isr_fst]
      rfl
  | keyboard port beyond =>
    refine .other rfl ?_
    obtain ⟨k₁, h₁, h⟩ := bind_ok.1 h
    obtain ⟨-, rfl⟩ := Prod.mk.inj (pure_ok.1 h)
    rw [irq1_isr_eq] at h₁
    split at h₁
    next =>
      obtain ⟨⟨e, k₂⟩, h₂, h₁⟩ := bind_ok.1 h₁
      have hlk : Kernel.Linked (k.keyed (keystroke_packet (SC_ASCII.getD port.toNat beyond).toInt8
          port.toUInt16)) k.queue := hw.linked.congr rfl rfl (Nat.le_refl _) fun _ _ => ⟨rfl, rfl⟩
      have hs := (psignal_send_ok hlk hw.heap h₂).sameDevices
      have hd : k.SameDevices k₂ :=
        ⟨⟨hs.drivertypes, hs.n_groups, hs.groups⟩, hs.screen, hs.console⟩
      dsimp only at h₁
      split at h₁
      · obtain rfl := pure_ok.1 h₁
        exact ⟨⟨hd.drivertypes, hd.n_groups, hd.groups⟩, hd.screen, hd.console⟩
      · obtain rfl := pure_ok.1 h₁
        exact hd
    next =>
      obtain rfl := Except.ok.inj h₁
      exact .refl _

end Devices

/-! ### The beginning -/

/-- **The devices at the end of `proc_init`**: no driver is claimed, and no request was made. -/
structure Undriven (k : Kernel) : Prop where
  drivertypes : k.drivertypes = fun _ => 0
  screen : k.screen = ⟨false, 0, 0, 0, 0, 0⟩
  n_groups : k.current.n_slave_driver_groups = 0
  state : k.current.state = .PSTATE_READY

theorem Started.undriven {k : Kernel} (h : Started k) : Undriven k := by
  obtain ⟨k₀, ret_rip, hp, h⟩ := h
  obtain ⟨mm, -, h⟩ := bind_ok.1 h
  obtain ⟨p, m₁, cr3, vm, stack, m₂, -, -, -, rfl⟩ := proc_init_cases h
  refine ⟨hp.drivertypes, hp.screen, ?_, ?_⟩
  · simp [Kernel.current, first_process]
  · simp [Kernel.current, first_process]

end Iridium
