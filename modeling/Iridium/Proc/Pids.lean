import Iridium.Proc.Effect

/-!
# Process identifiers

A new process takes `next_pid` as its PID. `kill` takes `next_pid` back when the head of
the queue dies: once because the running process has the head's PID, and once more when
`next_pid` is still above the new head's. The second step back is one too many when the
head's predecessor has the PID just below the head's: then `next_pid` is the PID of a live
process. And after `32767` the number is negative.

In a run that avoids both (`PidsInOrder`) the PIDs ascend along the queue, and `next_pid`
is above all of them.
-/

namespace Iridium

/-- **The PIDs are right**: no two processes in the queue have the same, all are positive,
and `next_pid` is nobody's. -/
structure PidsOk (k : Kernel) : Prop where
  distinct : ∀ p ∈ k.queue, ∀ q ∈ k.queue, (k.procs p).pid = (k.procs q).pid → p = q
  positive : ∀ p ∈ k.queue, 0 < (k.procs p).pid
  next_pid : ∀ p ∈ k.queue, (k.procs p).pid ≠ k.next_pid

/-- A process is made only while `next_pid` is positive, and the head exits only when its
predecessor's PID is not `next_pid - 2`. -/
structure PidsInOrder (k : Kernel) (e : Action × UInt64) : Prop where
  spawns : spawns k e.1 = true → 0 < k.next_pid
  exits : e.1.exits = true → refused k k.current.pid = false → k.current_task = k.queue_head →
    (k.procs k.head.prev).pid ≠ k.next_pid - 2

instance (k : Kernel) (e : Action × UInt64) : Decidable (PidsInOrder k e) :=
  decidable_of_iff
    ((spawns k e.1 = true → 0 < k.next_pid) ∧
      (e.1.exits = true → refused k k.current.pid = false → k.current_task = k.queue_head →
        (k.procs k.head.prev).pid ≠ k.next_pid - 2))
    ⟨fun h => ⟨h.1, h.2⟩, fun h => ⟨h.spawns, h.exits⟩⟩

/-! ### Arithmetic of PIDs -/

section Arith

variable {n g h : PID_T}

/-- The number after a positive PID is above it, or the least of all. -/
theorem pid_succ (hn : 0 < n) : n < n + 1 ∨ (n + 1 = -32768 ∧ n = 32767) := by
  simp only [Int16.lt_iff_toInt_lt, ← Int16.toInt_inj, Int16.toInt_add] at *
  have h1 := n.toInt_lt
  have h2 := n.le_toInt
  simp [Int.bmod_def] at *
  omega

/-- Taken back by two, a number that was above the head's PID is above its predecessor's,
unless it is equal to it. -/
theorem pid_back (hg : 0 < g) (hgh : g < h) (hn : h < n ∨ (n = -32768 ∧ h = 32767)) (hne : g ≠ n - 2) :
    n - 1 > g ∧ g < n - 2 := by
  simp only [Int16.lt_iff_toInt_lt, ← Int16.toInt_inj, Int16.toInt_sub, gt_iff_lt, ne_eq] at *
  have h1 := n.toInt_lt
  have h2 := n.le_toInt
  have h3 := h.toInt_lt
  simp [Int.bmod_def] at *
  omega

end Arith

/-! ### Ascending PIDs -/

/-- The PIDs of the queue, in its order. -/
def pids (k : Kernel) : List PID_T := k.queue.map fun p => (k.procs p).pid

/-- The PIDs ascend along the queue. -/
def Ascending (k : Kernel) : Prop := (pids k).Pairwise (· < ·)

section Ascending

variable {k k' : Kernel} {a : Action} {o : UInt64}

/-- The head's PID is the greatest. -/
theorem Ascending.lt_head (hw : k.WellFormed) (h : Ascending k) {p : ℕ} (hp : p ∈ k.queue)
    (hne : p ≠ k.queue_head) : (k.procs p).pid < k.head.pid := by
  obtain ⟨l, hl⟩ := List.getLast?_eq_some_iff.1 hw.linked.ring.last
  rw [Ascending, pids, hl, List.map_append, List.pairwise_append] at h
  rw [hl] at hp
  rcases List.mem_append.1 hp with hp | hp
  · exact h.2.2 _ (List.mem_map_of_mem hp) _ (by simp [Kernel.head])
  · exact absurd (List.mem_singleton.1 hp) hne

theorem Ascending.le_head (hw : k.WellFormed) (h : Ascending k) {p : ℕ} (hp : p ∈ k.queue) :
    (k.procs p).pid ≤ k.head.pid := by
  by_cases hh : p = k.queue_head
  · rw [hh]
    exact Int16.le_refl _
  · exact Int16.le_of_lt (h.lt_head hw hp hh)

/-- The first process's PID is the least. -/
theorem Ascending.pos (hw : k.WellFormed) (h : Ascending k) {p : ℕ} (hp : p ∈ k.queue) :
    0 < (k.procs p).pid := by
  obtain ⟨t, ht⟩ := hw.linked.ring.eq_cons
  rw [Ascending, pids, ht, List.map_cons, List.pairwise_cons, hw.init] at h
  rw [ht] at hp
  rcases List.mem_cons.1 hp with rfl | hp
  · rw [hw.init]
    decide
  · exact Int16.lt_trans (by decide) (h.1 _ (List.mem_map_of_mem hp))

theorem Ascending.inj (h : Ascending k) {p q : ℕ} (hp : p ∈ k.queue) (hq : q ∈ k.queue)
    (he : (k.procs p).pid = (k.procs q).pid) : p = q :=
  List.inj_on_of_nodup_map (h.imp fun hlt => Int16.ne_of_lt hlt) hp hq he

theorem Ascending.same (h : Ascending k) (hs : k.SameLinks k') : Ascending k' := by
  unfold Ascending pids
  rw [hs.queue, funext hs.pid]
  exact h

/-- A new process with a PID above the head's. -/
theorem Ascending.link {rip : UInt64} {path : List UInt8} {p : ℕ} {ctx : ℕ → UInt64} {mm : Mm}
    {q : Process} (hw : k.WellFormed) (h : Ascending k) (hlt : k.head.pid < q.pid)
    (hs : Spawned k rip path p ctx mm) (hn : q.next = k.queue_base) (hv : q.prev = k.queue_head) :
    Ascending (k.link p q mm) := by
  have hold : k.queue.map (fun r => ((k.link p q mm).procs r).pid) = pids k :=
    List.map_congr_left fun r hr => Kernel.link_pid (Kernel.fresh_ne hs (hw.le hr))
  unfold Ascending pids
  rw [hw.queue_link hs hn hv, List.map_append, hold, List.pairwise_append]
  refine ⟨h, List.pairwise_singleton _ _, fun x hx y hy => ?_⟩
  obtain ⟨r, hr, rfl⟩ := List.mem_map.1 hx
  rw [List.map_singleton, List.mem_singleton, Kernel.link_procs_self] at hy
  rw [hy]
  exact Int16.lt_of_le_of_lt (h.le_head hw hr) hlt

/-- A process that leaves. -/
theorem Ascending.kill {pmm : Pmm} (hw : k.WellFormed) (h : Ascending k)
    (hl : k.Live k.current_task) (hr : refused k k.current.pid = false)
    (hu : SolePid k k.queue k.current_task) : Ascending (killed k k.current_task pmm) := by
  have hne := hw.linked.ring.prev_ne hl (hw.ne_base hr)
  have hpid : ∀ r, ((killed k k.current_task pmm).procs r).pid = (k.procs r).pid := fun r => by
    rw [Kernel.killed_procs hne]
  unfold Ascending pids
  rw [hw.queue_killed hl hr hu, funext hpid]
  exact h.sublist (List.erase_sublist.map _)

theorem Booted.ascending (hb : Booted k) : Ascending k := by simp [Ascending, pids, hb.queue]

/-- **The PIDs keep ascending** when every new one is above the head's. -/
theorem Ascending.effect (hw : k.WellFormed) (h : Ascending k)
    (hC : spawns k a = true → k.head.pid < k.next_pid) (hE : Effect k a o k') : Ascending k' := by
  cases hE with
  | quiet hq => exact h.same hq.sameLinks
  | read => exact h.same (Kernel.sameLinks_read k)
  | hook => exact h.same (Kernel.sameLinks_hook k _)
  | queued => exact h.same (Kernel.sameLinks_deliver k _ _ _)
  | @handled _ _ x _ dword p _ _ _ hsend hr hc hs =>
    have hd := Kernel.sameLinks_deliver k x p dword
    have hlt : (deliver (k.keyed x) p dword).head.pid < k.next_pid := by
      rw [Kernel.head, hd.pid, hd.queue_head]
      exact hC (spawns_of_sends hsend hr hc)
    exact (h.same hd).link (hw.deliver x p dword) hlt hs rfl rfl
  | spawned hd hs => exact h.link hw (hC (by simp [spawns, hd])) hs rfl rfl
  | exited ha hs hr hu => exact h.kill hw (hw.running hs) hr hu
  | timer => exact h.same (Kernel.sameLinks_timer k _)

end Ascending

/-! ### The next PID -/

/-- The PIDs ascend along the queue, and `next_pid` is above the last, or has just run over. -/
structure PidsAscend (k : Kernel) : Prop where
  ascend : Ascending k
  next_pid : k.head.pid < k.next_pid ∨ (k.next_pid = -32768 ∧ k.head.pid = 32767)

section PidsAscend

variable {k k' : Kernel} {a : Action} {o : UInt64}

/-- Ascending PIDs are right. -/
theorem PidsAscend.ok (hw : k.WellFormed) (h : PidsAscend k) : PidsOk k where
  distinct _ hp _ hq he := h.ascend.inj hp hq he
  positive _ hp := h.ascend.pos hw hp
  next_pid p hp he := by
    rcases h.next_pid with hn | ⟨hn, -⟩
    · exact Int16.lt_irrefl (Int16.lt_of_le_of_lt (he ▸ h.ascend.le_head hw hp) hn)
    · have := h.ascend.pos hw hp
      rw [he, hn] at this
      exact absurd this (by decide)

/-- A positive `next_pid` is above the head's PID. -/
theorem PidsAscend.lt_next (h : PidsAscend k) (hpos : 0 < k.next_pid) : k.head.pid < k.next_pid := by
  rcases h.next_pid with h | ⟨h, -⟩
  · exact h
  · rw [h] at hpos
    exact absurd hpos (by decide)

/-- What follows for `next_pid` when it and the head stay as they are. -/
theorem PidsAscend.next_same (h : PidsAscend k) (hs : k.SameLinks k') (hn : k'.next_pid = k.next_pid) :
    k'.head.pid < k'.next_pid ∨ (k'.next_pid = -32768 ∧ k'.head.pid = 32767) := by
  have hh : k'.head.pid = k.head.pid := by
    unfold Kernel.head
    rw [hs.pid, hs.queue_head]
  rw [hh, hn]
  exact h.next_pid

/-- When the process that exits is the head, and its predecessor's PID is not `next_pid - 2`. -/
theorem PidsAscend.next_kill {pmm : Pmm} (hw : k.WellFormed) (h : PidsAscend k)
    (hl : k.Live k.current_task) (hr : refused k k.current.pid = false)
    (hu : SolePid k k.queue k.current_task)
    (hc : k.current_task = k.queue_head → (k.procs k.head.prev).pid ≠ k.next_pid - 2) :
    let k' := killed k k.current_task pmm
    k'.head.pid < k'.next_pid ∨ (k'.next_pid = -32768 ∧ k'.head.pid = 32767) := by
  have hb := hw.ne_base hr
  have hpid : (killed k k.current_task pmm).head.pid =
      (k.procs (killed k k.current_task pmm).queue_head).pid := by
    unfold Kernel.head
    rw [Kernel.killed_procs (hw.linked.ring.prev_ne hl hb)]
  dsimp only
  rw [hpid]
  by_cases hh : k.current_task = k.queue_head
  · obtain ⟨hhd, hnp⟩ := @Kernel.WellFormed.killed_head _ pmm hw hr hh
    rw [hh] at hb
    have hg : k.head.prev ∈ k.queue := hw.linked.ring.prev_mem hw.head_live hb
    have hgh := h.ascend.lt_head hw hg (hw.linked.ring.prev_ne hw.head_live hb)
    obtain ⟨hlt, hback⟩ := pid_back (h.ascend.pos hw hg) hgh h.next_pid (hc hh)
    rw [hhd, hnp, if_pos hlt]
    exact .inl hback
  · obtain ⟨hhd, hnp⟩ := @Kernel.WellFormed.killed_inner _ pmm hw hl hr hu hh
    rw [hhd, hnp]
    exact h.next_pid

/-- **A step in order keeps the order.** -/
theorem PidsAscend.effect (hw : k.WellFormed) (h : PidsAscend k) (hC : PidsInOrder k (a, o))
    (hE : Effect k a o k') : PidsAscend k' := by
  refine ⟨h.ascend.effect hw (fun hs => h.lt_next (hC.spawns hs)) hE, ?_⟩
  cases hE with
  | quiet hq => exact h.next_same hq.sameLinks hq.next_pid
  | read =>
    refine h.next_same (Kernel.sameLinks_read k) ?_
    rw [psignal_read_eq]
    split <;> rfl
  | hook => exact h.next_same (Kernel.sameLinks_hook k _) rfl
  | queued => exact h.next_same (Kernel.sameLinks_deliver k _ _ _) rfl
  | handled hsend hr hc =>
    rw [Kernel.link_head]
    exact pid_succ (hC.spawns (spawns_of_sends hsend hr hc))
  | spawned hd =>
    rw [Kernel.link_head]
    exact pid_succ (hC.spawns (by simp [spawns, hd]))
  | exited ha hs hr hu => exact h.next_kill hw (hw.running hs) hr hu (hC.exits ha hr)
  | timer =>
    refine h.next_same (Kernel.sameLinks_timer k _) ?_
    rw [irq0_isr_fst]
    rfl

end PidsAscend

/-! ### Results -/

theorem RunsTo.pidsAscend {es : List (Action × UInt64)} {k : Kernel} (h : RunsTo PidsInOrder es k) :
    PidsAscend k := by
  refine h.invariant (fun hw hb => ⟨hb.ascending, .inl ?_⟩) fun hw h hC hE => h.effect hw hC hE
  unfold Kernel.head
  rw [hb.queue_head, hw.init, hb.next_pid]
  decide

/-- **In every run that keeps the PIDs in order**, no two processes of the queue have the
same PID, all PIDs are positive, and the next one is free. -/
theorem pids_ok_of_in_order {es : List (Action × UInt64)} {k : Kernel} (h : RunsTo PidsInOrder es k) :
    PidsOk k :=
  h.pidsAscend.ok h.wellFormed

/-- Two processes are spawned, and the first of them exits. -/
theorem pids_ok_of_in_order_spawned : ∃ es k, RunsTo PidsInOrder es k ∧ PidsOk k ∧ k.next_pid = 4 := by
  obtain ⟨es, k, h, hn⟩ := traces_true PidsInOrder (fun k => k.next_pid == 4)
    [.initrd_spawn [65] 0 1, .initrd_spawn [65] 0 1, .timer quietTick, .exit]
    (by decide +kernel)
  exact ⟨es, k, h, pids_ok_of_in_order h, by simpa using hn⟩

/-- A process is spawned and exits: `next_pid` is the PID of the first process. -/
theorem pids_not_ok : ¬∀ es k, RunsTo Always es k → PidsOk k := by
  obtain ⟨es, k, h, hn⟩ := traces_true Always
    (fun k => k.queue.any fun p => (k.procs p).pid == k.next_pid)
    [.initrd_spawn [65] 0 1, .timer quietTick, .exit] (by decide +kernel)
  intro hall
  obtain ⟨p, hp, he⟩ := List.any_eq_true.1 hn
  exact (hall es k h).next_pid p hp (by simpa using he)

end Iridium
