import Iridium.Proc.Effect

/-!
# No assertion fails

In a well-formed state the assertions of `proc/proc.c` and `mm/kheap.c` hold, but for one:
that of `kill`, which fails when somebody else in the queue has the PID of the process
killed (`kill_eq`). The functions are gone through from the frame allocator up to the
actions (`act_noAssert`).
-/

namespace Iridium

/-! ### Memory -/

theorem pmm_alloc_noAssert (p : Pmm) : NoAssert (pmm_alloc p) := by
  unfold pmm_alloc
  split
  · simp
  · split <;> simp

theorem pmm_free_noAssert (p : Pmm) (base : UInt64) : NoAssert (pmm_free p base) := by
  unfold pmm_free
  refine NoAssert.bind (.ofFuel _) fun o _ => ?_
  cases o <;> simp

theorem make_table_noAssert {map : Vm → UInt64 → Kern Vm} (hmap : ∀ s a, NoAssert (map s a)) (s : Vm)
    (t i : ℕ) (flags : UInt32) : NoAssert (make_table map s t i flags) := by
  unfold make_table
  split
  · simp
  · exact NoAssert.bind (pmm_alloc_noAssert _) fun _ _ => hmap _ _

theorem set_leaf_noAssert (s : Vm) (t i : ℕ) (flags : UInt32) : NoAssert (set_leaf s t i flags) := by
  unfold set_leaf
  dsimp only
  split
  · simp
  · exact NoAssert.bind (pmm_alloc_noAssert _) fun _ _ => .pure _

theorem vmm_map_page_at_noAssert (depth : ℕ) (s : Vm) (pml4 logical : UInt64) (flags : UInt32) :
    NoAssert (vmm_map_page_at depth s pml4 logical flags) := by
  induction depth generalizing s logical with
  | zero => simp [vmm_map_page_at]
  | succ depth ih =>
    unfold vmm_map_page_at
    split
    · simp
    · have htable := make_table_noAssert fun s a => ih s a
      refine NoAssert.bind (htable _ _ _ _) fun _ _ => ?_
      refine NoAssert.bind (htable _ _ _ _) fun _ _ => ?_
      refine NoAssert.bind (htable _ _ _ _) fun _ _ => ?_
      exact NoAssert.bind (set_leaf_noAssert _ _ _ _) fun _ _ => .pure _

theorem vmm_map_page_noAssert (s : Vm) (pml4 logical : UInt64) (flags : UInt32) :
    NoAssert (vmm_map_page s pml4 logical flags) := vmm_map_page_at_noAssert 2 s pml4 logical flags

theorem mkpml4_noAssert (s : Vm) : NoAssert (mkpml4 s) := by
  refine NoAssert.bind (NoAssert.bind (pmm_alloc_noAssert _) fun a _ => ?_) fun _ _ => .pure _
  dsimp only
  split
  · simp
  · exact NoAssert.bind (vmm_map_page_noAssert _ _ _ _) fun _ _ => .pure _

theorem write8_noAssert (s : Vm) (a : UInt64) (b : UInt8) : NoAssert (write8 s a b) := by
  unfold write8
  split <;> simp

theorem write64_noAssert (s : Vm) (a w : UInt64) : NoAssert (write64 s a w) := by
  unfold write64
  split
  · split <;> simp
  · split <;> simp

theorem kmalloc_map_noAssert (n_bytes : UInt64) (fuel : ℕ) (s : Vm) (i : Int32) (tmp : ℕ) :
    NoAssert (kmalloc_map n_bytes fuel s i tmp) := by
  induction fuel generalizing s i tmp with
  | zero => simp [kmalloc_map]
  | succ fuel ih =>
    unfold kmalloc_map
    split
    · exact NoAssert.bind (vmm_map_page_noAssert _ _ _ _) fun _ _ => ih _ _ _
    · simp

theorem kmalloc_user_map_noAssert (stop fuel : ℕ) (s : Vm) (i : ℕ) :
    NoAssert (kmalloc_user_map stop fuel s i) := by
  induction fuel generalizing s i with
  | zero => simp [kmalloc_user_map]
  | succ fuel ih =>
    unfold kmalloc_user_map
    split
    · exact NoAssert.bind (vmm_map_page_noAssert _ _ _ _) fun _ _ => ih _ _
    · simp

section Heap

variable {m : Mm}

theorem kmalloc_noAssert (hm : m.HeapOk) (n_bytes : UInt64) : NoAssert (kmalloc m n_bytes) := by
  have hhead : m.heap.heap_head ≠ 0 := by
    have := hm.used.ne_zero
    have := hm.used.le
    omega
  unfold kmalloc
  split
  · simp
  · refine NoAssert.bind (NoAssert.bind (by simp [hhead]) fun _ _ => .ofFuel _) fun _ _ => ?_
    refine NoAssert.bind (kmalloc_map_noAssert _ _ _ _ _) fun _ _ => ?_
    dsimp only
    split <;> simp

theorem kmalloc_user_noAssert (hm : m.HeapOk) (n_bytes : UInt64) : NoAssert (kmalloc_user m n_bytes) :=
  NoAssert.bind (kmalloc_noAssert hm n_bytes) fun _ _ =>
    NoAssert.bind (kmalloc_user_map_noAssert _ _ _ _) fun _ _ => .pure _

theorem initrd_scan_noAssert (mem : UInt64 → UInt8) (path : List UInt8) (fuel : ℕ)
    (header address : UInt64) : NoAssert (initrd_scan mem path fuel header address) := by
  induction fuel generalizing header address with
  | zero => simp [initrd_scan]
  | succ fuel ih =>
    unfold initrd_scan
    split
    · simp
    · refine NoAssert.bind (NoAssert.bind (.ofFuel _) fun _ _ => ?_) fun _ _ => ?_
      · split <;> simp
      · split
        · simp
        · exact ih _ _

theorem initrd_open_noAssert (hm : m.HeapOk) (path : List UInt8) : NoAssert (initrd_open m path) := by
  refine NoAssert.bind ?_ fun o _ => ?_
  · unfold initrd_find
    split
    · simp
    · exact initrd_scan_noAssert _ _ _ _ _
  · cases o with
    | none => simp
    | some e =>
      refine NoAssert.bind (kmalloc_noAssert hm _) fun _ _ => ?_
      dsimp only
      split
      · simp [throw, throwThe, MonadExceptOf.throw]
      · simp

theorem elf_map_noAssert (cr3 stop : UInt64) (fuel : ℕ) (s : Vm) (i : UInt64) :
    NoAssert (elf_map cr3 stop fuel s i) := by
  induction fuel generalizing s i with
  | zero => simp [elf_map]
  | succ fuel ih =>
    unfold elf_map
    split
    · exact NoAssert.bind (vmm_map_page_noAssert _ _ _ _) fun _ _ => ih _ _
    · simp

theorem store8_noAssert (m : Mm) (a : UInt64) (b : UInt8) : NoAssert (m.store8 a b) :=
  NoAssert.bind (write8_noAssert _ _ _) fun _ _ => .pure _

theorem elf_copy_noAssert (phdr elf_ptr : ℕ) (segment : UInt64) (fuel : ℕ) (m : Mm) (i : UInt64) :
    NoAssert (elf_copy phdr elf_ptr segment fuel m i) := by
  induction fuel generalizing m i with
  | zero => simp [elf_copy]
  | succ fuel ih =>
    unfold elf_copy
    split
    · exact NoAssert.bind (store8_noAssert _ _ _) fun _ _ => ih _ _
    · simp

theorem elf_load_one_noAssert (file : ℕ) (cr3 : UInt64) (m : Mm) (phdr : ℕ) :
    NoAssert (elf_load_one file cr3 m phdr) := by
  unfold elf_load_one
  split
  · exact NoAssert.bind (elf_map_noAssert _ _ _ _ _) fun _ _ => elf_copy_noAssert _ _ _ _ _ _
  · simp

theorem elf_load_all_noAssert (file : ℕ) (cr3 : UInt64) (phentsize n : ℕ) (m : Mm) (phdr : ℕ) :
    NoAssert (elf_load_all file cr3 phentsize n m phdr) := by
  induction n generalizing m phdr with
  | zero => simp [elf_load_all]
  | succ n ih => exact NoAssert.bind (elf_load_one_noAssert _ _ _ _) fun _ _ => ih _ _

theorem elf_get_entry_noAssert (hm : m.HeapOk) (path : List UInt8) (cr3 : UInt64) :
    NoAssert (elf_get_entry m path cr3) := by
  refine NoAssert.bind (initrd_open_noAssert hm path) fun r hr => ?_
  obtain ⟨ptr, m₁⟩ := r
  have hm₁ := hm.grows (initrd_open_ok hm.used hr).1
  dsimp only
  split
  · simp
  split
  · simp
  refine NoAssert.bind (kmalloc_noAssert hm₁ _) fun _ _ => ?_
  split
  · exact NoAssert.bind (NoAssert.error.2 (by decide)) fun _ h => by cases h
  · exact NoAssert.bind (elf_load_all_noAssert _ _ _ _ _ _) fun _ _ => .pure _

theorem iret_frame_noAssert (s : Vm) (stack rsp rflags rip : UInt64) :
    NoAssert (iret_frame s stack rsp rflags rip) := by
  refine NoAssert.bind (write64_noAssert _ _ _) fun _ _ => ?_
  refine NoAssert.bind (write64_noAssert _ _ _) fun _ _ => ?_
  refine NoAssert.bind (write64_noAssert _ _ _) fun _ _ => ?_
  exact NoAssert.bind (write64_noAssert _ _ _) fun _ _ => write64_noAssert _ _ _

/-- There is always room for a stack. -/
theorem kmalloc_user_ne_zero {m' : Mm} {n_bytes : UInt64} {p : ℕ} (hm : m.HeapOk)
    (hn : n_bytes ≤ HEAP_SIZE) (h : kmalloc_user m n_bytes = .ok (p, m')) : p ≠ 0 := by
  obtain ⟨⟨block, m₁⟩, h₁, h⟩ := bind_ok.1 h
  obtain ⟨vm, -, h⟩ := bind_ok.1 h
  obtain ⟨rfl, -⟩ := Prod.mk.inj (pure_ok.1 h)
  obtain ⟨-, hp, -⟩ := hm.kmalloc_ok hn h₁
  rw [hp]
  unfold DATA_START KHEAP_BLOCK_SIZE
  omega

theorem setup_stack_noAssert (hm : m.HeapOk) (old : ℕ → UInt64) (cr3 old_cr3 rflags rip : UInt64) :
    NoAssert (setup_stack m old cr3 old_cr3 rflags rip) := by
  refine NoAssert.bind (kmalloc_user_noAssert hm _) fun r hr => ?_
  obtain ⟨stack, m₁⟩ := r
  refine NoAssert.bind ?_ fun _ _ => NoAssert.bind (iret_frame_noAssert _ _ _ _ _) fun _ _ => .pure _
  simpa using kmalloc_user_ne_zero hm (by decide) hr

theorem setup_context_noAssert (hm : m.HeapOk) (old : ℕ → UInt64) (rflags rip : UInt64)
    (path : List UInt8) : NoAssert (setup_context m old rflags rip path) := by
  refine NoAssert.bind (mkpml4_noAssert _) fun r _ => ?_
  obtain ⟨cr3, vm⟩ := r
  have hm₁ : Mm.HeapOk { m with vm := { vm with cr3 := cr3 } } := ⟨hm.used, hm.bytes_allocated⟩
  dsimp only
  split
  · refine NoAssert.bind (elf_get_entry_noAssert hm₁ _ _) fun r hr => ?_
    exact setup_stack_noAssert (hm₁.grows (elf_get_entry_ok hm₁.used hr).1) _ _ _ _ _
  · refine NoAssert.bind (.pure _) fun r hr => ?_
    obtain rfl := pure_ok.1 hr
    exact setup_stack_noAssert hm₁ _ _ _ _ _

end Heap

/-! ### Processes -/

section Processes

variable {k : Kernel} {l : List ℕ}

theorem spawn_memory_noAssert (hk : k.mm.HeapOk) (rip : UInt64) (path : List UInt8) :
    NoAssert (spawn_memory k rip path) := by
  refine NoAssert.bind (kmalloc_noAssert hk _) fun r hr => ?_
  obtain ⟨hg, -⟩ := hk.kmalloc_ok (by decide) hr
  exact NoAssert.bind (setup_context_noAssert (hk.grows hg) _ _ _ _) fun _ _ => .pure _

theorem _spawn_noAssert (hl : k.Linked l) (hk : k.mm.HeapOk) (rip : UInt64) (path : List UInt8)
    (permissions : PPERM_T) (uses_console : UInt8) :
    NoAssert (_spawn k rip path permissions uses_console) := by
  rw [_spawn_eq hl hk]
  split
  · exact .pure _
  · exact NoAssert.bind (spawn_memory_noAssert hk _ _) fun _ _ => .pure _

theorem psignal_exec_callback_noAssert (hl : k.Linked l) (hk : k.mm.HeapOk) {owner : ℕ} (ho : owner ∈ l) :
    NoAssert (psignal_exec_callback k owner) := by
  rw [psignal_exec_callback_eq hl hk ho]
  split
  · exact .pure _
  · exact NoAssert.bind (spawn_memory_noAssert hk _ _) fun _ _ => .pure _

theorem psignal_send_noAssert (hl : k.Linked l) (hk : k.mm.HeapOk) (dest : PID_T) (dword : UInt32) :
    NoAssert (psignal_send k dest dword) := by
  cases hp : l.find? (fun p => (k.procs p).pid == dest) with
  | none =>
    unfold psignal_send
    rw [hl.locate_proc, hp]
    exact .pure _
  | some p =>
    rw [psignal_send_found hl hp]
    split
    · exact .pure _
    split
    · exact .pure _
    have hl' : (deliver k p dword).Linked l := hl.modify fun _ => ⟨rfl, rfl⟩
    exact NoAssert.bind (psignal_exec_callback_noAssert (k := deliver k p dword) hl' hk (List.mem_of_find?_eq_some hp))
      fun _ _ => .pure _

/-- `exit` in a queue where nobody else has the PID of the running process. -/
theorem exit_noAssert (hl : k.Linked l) (h1 : (k.procs k.queue_base).pid = 1) (hc : k.current_task ∈ l)
    (hu : SolePid k l k.current_task) : NoAssert (exit k) := by
  cases hr : refused k k.current.pid with
  | true => simp [exit_refused hr]
  | false =>
    rw [exit_eq hl h1 hc hr hu]
    exact NoAssert.bind (pmm_free_noAssert _ _) fun _ _ => .pure _

theorem lfb_clear_screen_noAssert (fb : Lfb) (color : UInt32) : NoAssert (lfb_clear_screen fb color) := by
  unfold lfb_clear_screen
  split <;> simp

theorem write_string_noAssert (c : Console) (color : UInt32) (string : List UInt8) :
    NoAssert (write_string c color string) := by
  induction string generalizing c with
  | nil => exact .ok _
  | cons ch string ih =>
    show NoAssert (if ch = 0x0A then _ else _)
    split
    · exact ih _
    · have rest : ∀ c : Console, NoAssert (if c.x.toUInt64 ≥ c.fb.height - 1 then do
            let fb ← lfb_clear_screen c.fb 0x000000
            write_string { c with fb } color string
          else write_string c color string) := by
        intro c
        split
        · exact NoAssert.bind (lfb_clear_screen_noAssert _ _) fun _ _ => ih _
        · exact ih _
      exact rest _

theorem process_req_noAssert (s : ScreenUapi) (fb : Lfb) (saved_req req : UInt64) :
    NoAssert (process_req s fb saved_req req) := by
  have hclear : ∀ s : ScreenUapi, NoAssert (do
      let fb ← lfb_clear_screen fb s.color.toUInt32
      return (UAPI_STATUS_T.UAPI_OK, { s with data_index := 0 }, fb)) :=
    fun _ => NoAssert.bind (lfb_clear_screen_noAssert _ _) fun _ _ => .pure _
  have hput : ∀ s : ScreenUapi, NoAssert (if s.data_index ≥ 3 then
      .ok (UAPI_STATUS_T.UAPI_OK, { s with data_index := 0 },
        lfb_put_pixel fb s.x.toUInt32 s.y.toUInt32 s.color.toUInt32)
      else .ok (UAPI_STATUS_T.UAPI_CMDBURST_CONTINUE, s, fb)) := by
    intro s
    split <;> simp
  unfold process_req
  split
  · dsimp only
    split
    · split
      · exact hclear _
      · exact .pure _
    · split
      · exact hclear _
      · exact .pure _
  split
  · exact hput _
  · simp

theorem screen_uapi_noAssert (s : ScreenUapi) (fb : Lfb) (verified : Bool) (req : UInt64) :
    NoAssert (screen_uapi s fb verified req) := by
  unfold screen_uapi
  split
  · simp
  split
  · split
    · simp
    split <;> simp
  refine NoAssert.bind (process_req_noAssert _ _ _ _) fun _ _ => ?_
  dsimp only
  split <;> simp

/-- **No action fails an assertion**, as long as a process that exits is the only one with
its PID. -/
theorem act_noAssert (hw : k.WellFormed) {a : Action} (he : Enabled k a)
    (hu : a.exits = true → SolePid k k.queue k.current_task) : NoAssert (act k a) := by
  have hexit : a.exits = true → NoAssert (exit k) := by
    intro ha
    exact exit_noAssert hw.linked hw.init (hw.running (he.not_spinning ha)) (hu ha)
  cases a with
  | initrd_spawn path permissions uses_console =>
    refine NoAssert.bind (NoAssert.bind (_spawn_noAssert hw.linked hw.heap _ _ _ _) fun _ _ => ?_)
      fun _ _ => .pure _
    dsimp only
    split <;> simp
  | psignal_send dest dword =>
    exact NoAssert.bind (psignal_send_noAssert hw.linked hw.heap _ _) fun _ _ => .pure _
  | psignal_read => exact .ok _
  | psignal_hook callback => exact .ok _
  | drv_claim driver_type => exact .ok _
  | sysreq service_num request uninit =>
    refine NoAssert.bind ?_ fun _ _ => .pure _
    unfold sysreq
    split
    · simp
    split
    · exact NoAssert.bind (screen_uapi_noAssert _ _ _ _) fun _ _ => .pure _
    split <;> simp
  | con_out string color => exact NoAssert.bind (write_string_noAssert _ _ _) fun _ _ => .pure _
  | exit => exact NoAssert.bind (hexit rfl) fun _ _ => .pure _
  | fault =>
    refine NoAssert.bind ?_ fun _ _ => .pure _
    unfold handle_exception
    split
    · simp
    · exact hexit rfl
  | timer t => exact .ok _
  | keyboard port beyond =>
    refine NoAssert.bind ?_ fun _ _ => .pure _
    rw [irq1_isr_eq]
    split
    · have hl : (k.keyed (keystroke_packet (SC_ASCII.getD port.toNat beyond).toInt8
          port.toUInt16)).Linked k.queue := hw.linked.congr rfl rfl (Nat.le_refl _) fun _ _ => ⟨rfl, rfl⟩
      refine NoAssert.bind (psignal_send_noAssert hl hw.heap _ _) fun _ _ => ?_
      dsimp only
      split <;> simp
    · simp

end Processes

end Iridium
