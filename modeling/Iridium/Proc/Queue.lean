import Iridium.Proc.Step
import Mathlib.Data.List.Perm.Subperm

/-!
# The run queue

The descriptors in the queue form a ring (`Lib.Ring`) that starts at `queue_base` and ends
at `queue_head`: `Kernel.Linked`. On a linked queue `locate_proc` is a search of a list.
The addresses of descriptors are bounded by the end of the heap, and an allocation gives an
address above that bound, so a new descriptor is never one that is in use.

Three things happen to the queue. A process is linked behind the head (`Kernel.link`), one
other than the first is taken out (`unlink`), or the queue stays as it is. What the
functions of `proc/proc.c` do is stated in these terms.
-/

namespace Iridium

namespace Kernel

/-- Where the data of the last block of the heap begins: no descriptor lies above. -/
def frontier (k : Kernel) : ℕ := DATA_START k.mm.heap.heap_head

/-- **A linked queue**: the processes in `l` form a ring from the base to the head. -/
structure Linked (k : Kernel) (l : List ℕ) : Prop where
  ring : Lib.Ring (fun p => (k.procs p).next) (fun p => (k.procs p).prev) k.queue_base k.queue_head l
  below : ∀ p ∈ l, p ≤ k.frontier

variable {k k' : Kernel} {l : List ℕ}

theorem length_le_fuel (hnd : l.Nodup) (hb : ∀ p ∈ l, p ≤ k.frontier) : l.length ≤ k.fuel := by
  have hsub : l ⊆ List.range k.fuel := fun p hp => by
    rw [List.mem_range]
    exact Nat.lt_succ_of_le (hb p hp)
  simpa using (List.subperm_of_subset hnd hsub).length_le

/-- On a ring the search is a search of the list, wherever `queue_head` points. -/
theorem locate_proc_of_ring {next prev : ℕ → ℕ} {base head : ℕ} (h : Lib.Ring next prev base head l)
    (hn : (fun p => (k.procs p).next) = next) (hq : k.queue_base = base) (hb : ∀ p ∈ l, p ≤ k.frontier)
    (pid : PID_T) : locate_proc k pid = .ok (l.find? fun p => (k.procs p).pid == pid) := by
  unfold locate_proc
  rw [hn, hq, h.search_eq _ (length_le_fuel h.nodup hb)]
  rfl

/-- The walk from `queue_base` meets the processes of the ring. -/
theorem Linked.queue_eq (h : k.Linked l) : k.queue = l :=
  h.ring.walk_eq (length_le_fuel h.ring.nodup h.below)

theorem Linked.locate_proc (h : k.Linked l) (pid : PID_T) :
    locate_proc k pid = .ok (l.find? fun p => (k.procs p).pid == pid) :=
  locate_proc_of_ring h.ring rfl rfl h.below pid

/-- An address above all those in use is not the head's. -/
theorem Linked.fresh_ne (h : k.Linked l) {p : ℕ} (hp : k.frontier < p) : k.queue_head ≠ p := by
  have := h.below _ h.ring.head_mem
  omega

theorem Linked.congr (h : k.Linked l) (hb : k'.queue_base = k.queue_base)
    (hh : k'.queue_head = k.queue_head) (hf : k.frontier ≤ k'.frontier)
    (hl : ∀ p ∈ l, (k'.procs p).next = (k.procs p).next ∧ (k'.procs p).prev = (k.procs p).prev) :
    k'.Linked l where
  ring := by
    rw [hb, hh]
    exact h.ring.congr (fun p hp => (hl p hp).1) fun p hp _ => (hl p hp).2
  below p hp := (h.below p hp).trans hf

/-- A change that keeps the links keeps the queue. -/
theorem Linked.modify (hl : k.Linked l) {p : ℕ} {f : Process → Process}
    (hf : ∀ q, (f q).next = q.next ∧ (f q).prev = q.prev) : (k.modify p f).Linked l := by
  refine hl.congr rfl rfl (Nat.le_refl _) fun r _ => ?_
  by_cases hr : r = p
  · subst hr
    simpa [Kernel.modify] using hf (k.procs r)
  · simp [Kernel.modify, Function.update_of_ne hr]

/-- The new process `q` at `p`, behind the head, with the memory after all that was
allocated for it. -/
def link (k : Kernel) (p : ℕ) (q : Process) (mm : Mm) : Kernel :=
  { k with
    mm
    queue_head := p
    next_pid := k.next_pid + 1
    procs := Function.update (Function.update k.procs k.queue_head { k.head with next := p }) p q }

section link

variable {p r : ℕ} {q : Process} {mm : Mm}

@[simp] theorem link_procs_self : (k.link p q mm).procs p = q := by simp [link]

@[simp] theorem link_head : (k.link p q mm).head = q := link_procs_self

theorem link_procs_of_ne (hp : r ≠ p) (hh : r ≠ k.queue_head) :
    (k.link p q mm).procs r = k.procs r := by
  simp [link, Function.update_of_ne hp, Function.update_of_ne hh]

theorem link_procs_head (hp : k.queue_head ≠ p) :
    (k.link p q mm).procs k.queue_head = { k.head with next := p } := by
  simp [link, Function.update_of_ne hp]

/-- Linking changes nothing but `next` in the processes that were there. -/
theorem link_procs (hp : r ≠ p) : (k.link p q mm).procs r =
    { k.procs r with next := if r = k.queue_head then p else (k.procs r).next } := by
  by_cases hh : r = k.queue_head
  · subst hh
    rw [link_procs_head hp, if_pos rfl]
    rfl
  · rw [link_procs_of_ne hp hh, if_neg hh]

theorem link_pid (hp : r ≠ p) : ((k.link p q mm).procs r).pid = (k.procs r).pid := by
  rw [link_procs hp]

/-- A new process linked behind the head. -/
theorem Linked.link (h : k.Linked l) (hp : k.frontier < p) (hmm : p ≤ DATA_START mm.heap.heap_head)
    (hn : q.next = k.queue_base) (hv : q.prev = k.queue_head) :
    (k.link p q mm).Linked (l ++ [p]) := by
  have hpl : p ∉ l := fun hm => by
    have := h.below p hm
    omega
  refine ⟨h.ring.append hpl ?_ ?_, ?_⟩
  · funext r
    by_cases hr : r = p
    · subst hr
      simp [hn]
    · by_cases hh : r = k.queue_head
      · subst hh
        simp [link_procs_head hr, Function.update_of_ne hr]
      · simp [link_procs_of_ne hr hh, Function.update_of_ne hr, Function.update_of_ne hh]
  · funext r
    by_cases hr : r = p
    · subst hr
      simp [hv]
    · by_cases hh : r = k.queue_head
      · subst hh
        simp [link_procs_head hr, Function.update_of_ne hr, head]
      · simp [link_procs_of_ne hr hh, Function.update_of_ne hr]
  · intro r hr
    show r ≤ DATA_START mm.heap.heap_head
    rcases List.mem_append.1 hr with hr | hr
    · exact ((h.below r hr).trans (Nat.le_of_lt hp)).trans hmm
    · rwa [List.mem_singleton.1 hr]

end link

/-! ### Taking a process out -/

section Unlink

variable {p : ℕ}

/-- What `splice` makes of the descriptors. -/
theorem splice_procs (hne : (k.procs p).prev ≠ p) (r : ℕ) :
    (splice k p).procs r =
      { k.procs r with
        next := if r = (k.procs p).prev then (k.procs p).next else (k.procs r).next
        prev := if r = (k.procs p).next then (k.procs p).prev else (k.procs r).prev } := by
  have hp : Function.update k.procs (k.procs p).prev
      { k.procs (k.procs p).prev with next := (k.procs p).next } p = k.procs p :=
    Function.update_of_ne hne.symm _ _
  simp only [splice, modify, hp]
  generalize (k.procs p).prev = a
  generalize (k.procs p).next = b
  by_cases hb : r = b
  · subst hb
    by_cases ha : r = a
    · subst ha
      simp
    · simp [ha]
  · by_cases ha : r = a
    · subst ha
      simp [hb]
    · simp [hb, ha]

theorem splice_next (hne : (k.procs p).prev ≠ p) :
    (fun r => ((splice k p).procs r).next) =
      Function.update (fun r => (k.procs r).next) (k.procs p).prev (k.procs p).next := by
  funext r
  rw [splice_procs hne, Function.update_apply]

theorem splice_prev (hne : (k.procs p).prev ≠ p) :
    (fun r => ((splice k p).procs r).prev) =
      Function.update (fun r => (k.procs r).prev) (k.procs p).next (k.procs p).prev := by
  funext r
  rw [splice_procs hne, Function.update_apply]

@[simp] theorem splice_pid (hne : (k.procs p).prev ≠ p) (r : ℕ) :
    ((splice k p).procs r).pid = (k.procs r).pid := by
  rw [splice_procs hne]

/-- `unlink` is `splice`, with the head and the next PID moved back. -/
theorem unlink_eq (k : Kernel) (pid : PID_T) (p : ℕ) :
    unlink k pid p = { splice k p with
      queue_head :=
        if pid = (splice k p).head.pid then (splice k p).head.prev else (splice k p).queue_head
      next_pid :=
        if pid = (splice k p).head.pid ∧
            (splice k p).next_pid > ((splice k p).procs (splice k p).head.prev).pid then
          (splice k p).next_pid - 1
        else (splice k p).next_pid } := by
  unfold unlink
  dsimp only
  split
  next h =>
    have hhead : ∀ q, ({ splice k p with queue_head := q } : Kernel).head = (splice k p).procs q :=
      fun _ => rfl
    simp only [h, hhead, true_and]
    split <;> rfl
  next h => simp [h]

/-- **Taking a process out** by its own PID, when nobody else in the queue has it. -/
theorem Linked.unlink (h : k.Linked l) (hp : p ∈ l) (hb : p ≠ k.queue_base)
    (hu : ∀ r ∈ l, (k.procs r).pid = (k.procs p).pid → r = p) :
    (unlink k (k.procs p).pid p).Linked (l.erase p) := by
  have hne := h.ring.prev_ne hp hb
  have hr := h.ring.remove hp hb (splice_next hne) (splice_prev hne)
  have hhead : (if (k.procs p).pid = (splice k p).head.pid then (splice k p).head.prev
      else (splice k p).queue_head) = if p = k.queue_head then (k.procs p).prev else k.queue_head := by
    have hpid : (splice k p).head.pid = k.head.pid := splice_pid hne _
    rw [hpid]
    by_cases he : p = k.queue_head
    · have hnb : k.queue_head ≠ (k.procs p).next := by
        have hclose : (k.procs k.queue_head).next = k.queue_base := h.ring.close
        rw [he, hclose, ← he]
        exact hb
      have hhp : (splice k p).head.prev = k.head.prev := by
        show ((splice k p).procs k.queue_head).prev = _
        rw [splice_procs hne, if_neg hnb]
        rfl
      rw [if_pos he, if_pos (by rw [he]; rfl), hhp, he]
      rfl
    · rw [if_neg he, if_neg (fun e => he (hu _ h.ring.head_mem e.symm).symm)]
      rfl
  rw [unlink_eq]
  refine ⟨?_, fun r hm => h.below r (List.mem_of_mem_erase hm)⟩
  dsimp only
  rw [hhead]
  exact hr

end Unlink

end Kernel

end Iridium
