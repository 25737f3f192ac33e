import Mathlib.Data.List.Chain
import Mathlib.Data.List.Nodup
import Mathlib.Logic.Function.Basic

/-!
# Circular linked lists

Nodes live in a store and are linked by two maps `next` and `prev`. A *ring* is
the circular list one meets by following `next` from a fixed node, the base, until
the base comes back. The back links are only asked for between neighbours of that
list: nothing is said about where the base itself points back to, so a list whose
insertions do not keep that one link is still a ring.

The operations are those a queue of descriptors needs: a search that walks
the ring (`search`, and `searchBehind` for one that comes to the base last), a
node appended behind the last one (`Ring.append`) and a node other than the base
taken out (`Ring.remove`).
-/

namespace Lib

variable {α : Type*}

/-- **A ring**: following `next` from `base` visits the nodes of `l` once each, the
last of them is `head`, and `head` leads back to `base`. -/
structure Ring (next prev : α → α) (base head : α) (l : List α) : Prop where
  /-- No node is met twice. -/
  nodup : l.Nodup
  /-- The walk starts at the base. -/
  first : l.head? = some base
  /-- It ends at the head. -/
  last : l.getLast? = some head
  /-- Neighbours point at each other. -/
  chain : l.IsChain fun a b => next a = b ∧ prev b = a
  /-- The head leads back to the base. -/
  close : next head = base

/-- The search of a circular list: look at `p`, then at its successors, and give up
when the base comes back. `none` when the fuel does not last. -/
def search (next : α → α) [DecidableEq α] (base : α) (P : α → Bool) : ℕ → α → Option (Option α)
  | 0, _ => none
  | fuel + 1, p =>
    if P p then some (some p)
    else if next p = base then some none
    else search next base P fuel (next p)

/-- The search that looks at the successors of `p` only, the base last. -/
def searchBehind (next : α → α) [DecidableEq α] (base : α) (P : α → Bool) : ℕ → α → Option (Option α)
  | 0, _ => none
  | fuel + 1, p =>
    if P (next p) then some (some (next p))
    else if next p = base then some none
    else searchBehind next base P fuel (next p)

/-- The nodes met from `p` on until the base comes back. -/
def walk (next : α → α) [DecidableEq α] (base : α) : ℕ → α → List α
  | 0, _ => []
  | fuel + 1, p => p :: if next p = base then [] else walk next base fuel (next p)

/-- In a list without repetition the second of two neighbours is not the first node. -/
theorem pair_ne_first {l₁ l₂ : List α} {a b x : α} (hnd : (l₁ ++ a :: b :: l₂).Nodup)
    (hf : (l₁ ++ a :: b :: l₂).head? = some x) : b ≠ x := by
  rintro rfl
  cases l₁ with
  | nil =>
    have : a = b := by simpa using hf
    simp [this] at hnd
  | cons c l₁ =>
    have : c = b := by simpa using hf
    simp [this] at hnd

/-- In a list without repetition the first of two neighbours is not the last node. -/
theorem pair_ne_last {l₁ l₂ : List α} {a b x : α} (hnd : (l₁ ++ a :: b :: l₂).Nodup)
    (hl : (l₁ ++ a :: b :: l₂).getLast? = some x) : a ≠ x := by
  rintro rfl
  have hm : a ∈ b :: l₂ := List.mem_of_getLast? (by simpa using hl)
  rw [List.nodup_append, List.nodup_cons] at hnd
  exact hnd.2.1.1 hm

/-- Turning the link out of the last node, and the link back from a node that none of the list leads to,
keeps the links inside the list. -/
private theorem chain_update [DecidableEq α] {next prev : α → α} {l : List α} {a b y z : α}
    (hc : (l ++ [a]).IsChain fun c d => next c = d ∧ prev d = c) (hnd : (l ++ [a]).Nodup)
    (hb : b ∉ (l ++ [a]).tail) :
    (l ++ [a]).IsChain fun c d => Function.update next a y c = d ∧ Function.update prev b z d = c := by
  rw [List.isChain_iff_forall_rel_of_append_cons_cons] at hc ⊢
  intro c d m₁ m₂ hm
  have hcd : next c = d ∧ prev d = c := hc hm
  have hca : c ≠ a := pair_ne_last (hm ▸ hnd) (by rw [← hm]; simp)
  have hdb : d ≠ b := by
    rintro rfl
    rw [hm] at hb
    cases m₁ <;> simp at hb
  simpa [Function.update_of_ne, hca, hdb] using hcd

namespace Ring

variable {next prev : α → α} {base head : α} {l : List α}

theorem base_mem (h : Ring next prev base head l) : base ∈ l := List.mem_of_head? h.first

theorem head_mem (h : Ring next prev base head l) : head ∈ l := List.mem_of_getLast? h.last

theorem eq_cons (h : Ring next prev base head l) : ∃ t, l = base :: t := by
  cases l with
  | nil => simpa using h.first
  | cons a t => exact ⟨t, by simpa using h.first⟩

/-- A ring with only its base. -/
theorem singleton (hn : next base = base) : Ring next prev base base [base] :=
  ⟨List.nodup_singleton _, rfl, rfl, List.isChain_singleton _, hn⟩

/-- The links of a ring determine what follows a node. -/
theorem next_eq (h : Ring next prev base head l) {l₁ l₂ : List α} {a b : α}
    (hl : l = l₁ ++ a :: b :: l₂) : next a = b ∧ prev b = a := by
  have hc := h.chain
  rw [hl, List.isChain_append_cons_cons] at hc
  exact hc.2.1

/-- The successor of a node of the ring is a node of the ring. -/
theorem next_mem (h : Ring next prev base head l) {a : α} (ha : a ∈ l) : next a ∈ l := by
  obtain ⟨l₁, l₂, rfl⟩ := List.append_of_mem ha
  cases l₂ with
  | nil =>
    have : a = head := by simpa using h.last
    rw [this, h.close, ← this]
    exact h.base_mem
  | cons b l₂ => rw [(h.next_eq rfl).1]; simp

/-- Read on from a node, around the base, the ring begins with the node's successor. -/
theorem next_around (h : Ring next prev base head l) {l₁ l₂ : List α} {a : α} (hl : l = l₁ ++ a :: l₂) :
    (l₂ ++ (l₁ ++ [a])).head? = some (next a) := by
  cases l₂ with
  | nil =>
    have ha : a = head := by
      have := h.last
      rw [hl] at this
      simpa using this
    have hf := h.first
    rw [hl] at hf
    rw [List.nil_append, hf, ha, h.close]
  | cons b l₂ => rw [(h.next_eq hl).1]; rfl

/-- A node other than the base has its predecessor in the ring just before it. -/
theorem split_of_ne (h : Ring next prev base head l) {x : α} (hx : x ∈ l) (hb : x ≠ base) :
    ∃ l₁ l₂, l = l₁ ++ prev x :: x :: l₂ := by
  obtain ⟨l₁, l₂, rfl⟩ := List.append_of_mem hx
  rcases List.eq_nil_or_concat l₁ with rfl | ⟨l₀, a, rfl⟩
  · exact absurd (by simpa using h.first) hb
  · rw [List.concat_eq_append, List.append_assoc, List.singleton_append] at h ⊢
    exact ⟨l₀, l₂, by rw [(h.next_eq rfl).2]⟩

theorem prev_mem (h : Ring next prev base head l) {x : α} (hx : x ∈ l) (hb : x ≠ base) :
    prev x ∈ l := by
  obtain ⟨l₁, l₂, hl⟩ := h.split_of_ne hx hb
  rw [hl]; simp

theorem prev_ne (h : Ring next prev base head l) {x : α} (hx : x ∈ l) (hb : x ≠ base) :
    prev x ≠ x := by
  obtain ⟨l₁, l₂, hl⟩ := h.split_of_ne hx hb
  intro he
  have := h.nodup
  rw [hl, he] at this
  simp [List.nodup_append] at this

/-- A node other than the base is not its own successor. -/
theorem next_ne (h : Ring next prev base head l) {x : α} (hx : x ∈ l) (hb : x ≠ base) :
    next x ≠ x := by
  obtain ⟨l₁, l₂, rfl⟩ := List.append_of_mem hx
  cases l₂ with
  | nil =>
    have hxh : x = head := by simpa using h.last
    rw [hxh, h.close, ← hxh]
    exact hb.symm
  | cons b l₂ =>
    rw [(h.next_eq rfl).1]
    rintro rfl
    have := h.nodup
    simp [List.nodup_append] at this

/-- One step along the ring: behind a last node comes the base, -/
private theorem next_last (h : Ring next prev base head l) {l₁ : List α} {p : α} (hl : l = l₁ ++ [p]) :
    next p = base := by
  have hp : p = head := by simpa [hl] using h.last
  rw [hp]
  exact h.close

/-- and behind any other node comes its neighbour, which is not the base. -/
private theorem next_cons (h : Ring next prev base head l) {l₁ l₂ : List α} {p b : α}
    (hl : l = l₁ ++ p :: b :: l₂) : next p = b ∧ b ≠ base ∧ l = (l₁ ++ [p]) ++ b :: l₂ :=
  ⟨(h.next_eq hl).1, pair_ne_first (hl ▸ h.nodup) (hl ▸ h.first), by simpa using hl⟩

/-- The links may change away from the ring. -/
theorem congr {next' prev' : α → α} (h : Ring next prev base head l)
    (hn : ∀ a ∈ l, next' a = next a) (hp : ∀ a ∈ l, a ≠ base → prev' a = prev a) :
    Ring next' prev' base head l where
  nodup := h.nodup
  first := h.first
  last := h.last
  close := (hn head h.head_mem).trans h.close
  chain := by
    rw [List.isChain_iff_forall_rel_of_append_cons_cons]
    rintro a b l₁ l₂ rfl
    have hab := h.next_eq rfl
    refine ⟨(hn a (by simp)).trans hab.1, (hp b (by simp) ?_).trans hab.2⟩
    exact pair_ne_first h.nodup h.first

section Decidable

variable [DecidableEq α]

/-- **Appending.** A new node linked behind the head and back to the base. -/
theorem append (h : Ring next prev base head l) {x : α} (hx : x ∉ l) {next' prev' : α → α}
    (hn : next' = Function.update (Function.update next head x) x base)
    (hp : prev' = Function.update prev x head) :
    Ring next' prev' base x (l ++ [x]) := by
  subst hn hp
  have hne : head ≠ x := fun e => hx (e ▸ h.head_mem)
  refine ⟨?_, ?_, by simp, ?_, by simp⟩
  · rw [List.nodup_append]
    refine ⟨h.nodup, List.nodup_singleton _, fun a ha b hb hab => hx ?_⟩
    rwa [← List.mem_singleton.1 hb, ← hab]
  · obtain ⟨t, rfl⟩ := h.eq_cons
    rfl
  rw [List.isChain_append]
  refine ⟨?_, List.isChain_singleton _, ?_⟩
  · -- inside the old list no link changed: the head is its last node
    rw [List.isChain_iff_forall_rel_of_append_cons_cons]
    rintro a b l₁ l₂ rfl
    have hab := h.next_eq rfl
    have hah : a ≠ head := pair_ne_last h.nodup h.last
    have hax : a ≠ x := by rintro rfl; simp at hx
    have hbx : b ≠ x := by rintro rfl; simp at hx
    simpa [Function.update_of_ne, hah, hax, hbx] using hab
  · intro a ha b hb
    have hah : head = a := by simpa [h.last] using ha
    have hbx : x = b := by simpa using hb
    subst hah hbx
    simp [Function.update_of_ne hne]

/-- **Removal.** A node other than the base taken out by joining its neighbours; when
it was the head, its predecessor becomes the head. -/
theorem remove (h : Ring next prev base head l) {x : α} (hx : x ∈ l) (hb : x ≠ base)
    {next' prev' : α → α} (hn : next' = Function.update next (prev x) (next x))
    (hp : prev' = Function.update prev (next x) (prev x)) :
    Ring next' prev' base (if x = head then prev x else head) (l.erase x) := by
  subst hn hp
  obtain ⟨l₁, l₂, hl⟩ := h.split_of_ne hx hb
  generalize ha : prev x = a at hl ⊢
  subst hl
  have hnd := h.nodup
  have hxa : x ≠ a := fun e => h.prev_ne hx hb (ha.trans e.symm)
  have hx₁ : x ∉ l₁ := fun hm => by
    rw [List.nodup_append] at hnd
    exact hnd.2.2 x hm x (by simp) rfl
  have he : (l₁ ++ a :: x :: l₂).erase x = l₁ ++ a :: l₂ := by
    rw [List.erase_append_right _ hx₁, List.erase_cons_tail (by simpa using hxa.symm),
      List.erase_cons_head]
  have hnd' : (l₁ ++ a :: l₂).Nodup := he ▸ hnd.erase x
  have hfirst : (l₁ ++ a :: l₂).head? = some base := by
    have := h.first
    cases l₁ <;> simpa using this
  have hchain := h.chain
  rw [List.isChain_append_cons_cons] at hchain
  obtain ⟨hc₁, -, hc₂⟩ := hchain
  rw [he]
  have hnd₁ : (l₁ ++ [a]).Nodup := hnd'.sublist (by simp)
  cases l₂ with
  | nil =>
    have hxh : x = head := by simpa using h.last
    have hnx : next x = base := by rw [hxh]; exact h.close
    rw [if_pos hxh, hnx]
    have hbt : base ∉ (l₁ ++ [a]).tail := by
      obtain ⟨t, ht⟩ := List.head?_eq_some_iff.1 hfirst
      rw [ht] at hnd' ⊢
      exact (List.nodup_cons.1 hnd').1
    exact ⟨hnd', hfirst, by simp, chain_update hc₁ hnd₁ hbt, by simp⟩
  | cons b l₂ =>
    rw [List.isChain_cons_cons] at hc₂
    obtain ⟨⟨hxb, hbx⟩, hc₃⟩ := hc₂
    have hlast : (l₁ ++ a :: b :: l₂).getLast? = some head := by simpa using h.last
    have hxh : x ≠ head := by
      rw [show l₁ ++ a :: x :: b :: l₂ = (l₁ ++ [a]) ++ x :: b :: l₂ by simp] at hnd
      exact pair_ne_last hnd (by simpa using h.last)
    have hha : head ≠ a := (pair_ne_last hnd' hlast).symm
    have hb₁ : b ∉ l₁ ++ [a] := fun hm => by
      rw [show l₁ ++ a :: b :: l₂ = (l₁ ++ [a]) ++ b :: l₂ by simp, List.nodup_append] at hnd'
      exact hnd'.2.2 b hm b (by simp) rfl
    rw [if_neg hxh, hxb]
    refine ⟨hnd', hfirst, hlast, ?_, by rw [Function.update_of_ne hha]; exact h.close⟩
    rw [List.isChain_append_cons_cons]
    refine ⟨chain_update hc₁ hnd₁ fun hm => hb₁ (List.mem_of_mem_tail hm), by simp, ?_⟩
    -- behind `b` no link changed
    refine hc₃.imp_of_mem_tail_imp fun c d hc hd hcd => ?_
    simp only [List.nodup_append, List.nodup_cons] at hnd'
    have hca : c ≠ a := by rintro rfl; exact hnd'.2.1.1 hc
    have hdb : d ≠ b := by rintro rfl; exact hnd'.2.1.2.1 hd
    simpa [Function.update_of_ne, hca, hdb] using hcd

/-- The search finds the first node of the rest of the ring that satisfies `P`. -/
private theorem search_suffix (h : Ring next prev base head l) (P : α → Bool) {fuel : ℕ} {p : α}
    {l₁ l₂ : List α} (hl : l = l₁ ++ p :: l₂) (hf : l₂.length < fuel) :
    search next base P fuel p = some ((p :: l₂).find? P) := by
  induction l₂ generalizing fuel l₁ p with
  | nil =>
    obtain ⟨f, rfl⟩ : ∃ f, fuel = f + 1 := ⟨fuel - 1, by simp at hf; omega⟩
    by_cases hP : P p = true
    · simp [search, hP]
    · simp [search, hP, h.next_last hl]
  | cons b l₂ ih =>
    obtain ⟨f, rfl⟩ : ∃ f, fuel = f + 1 := ⟨fuel - 1, by simp at hf; omega⟩
    obtain ⟨hpb, hbb, hl'⟩ := h.next_cons hl
    by_cases hP : P p = true
    · simp [search, hP]
    · have hf' : l₂.length < f := by simp at hf; omega
      simp [search, hP, hpb, hbb, ih hl' hf']

/-- **Search.** From the base the search finds the first node that satisfies `P`, and
gives up after it has seen every node once. -/
theorem search_eq (h : Ring next prev base head l) (P : α → Bool) {fuel : ℕ}
    (hf : l.length ≤ fuel) : search next base P fuel base = some (l.find? P) := by
  obtain ⟨t, rfl⟩ := h.eq_cons
  exact h.search_suffix P (List.nil_append _).symm (Nat.lt_of_succ_le hf)

/-- **Search behind the base.** It finds the first of the other nodes that satisfies `P`, or else the base. -/
theorem searchBehind_eq (h : Ring next prev base head l) (P : α → Bool) {fuel : ℕ} (hf : l.length ≤ fuel) :
    searchBehind next base P fuel base = some ((l.tail ++ [base]).find? P) := by
  have key : ∀ {l₂ l₁ : List α} {p : α} {fuel : ℕ}, l = l₁ ++ p :: l₂ → l₂.length < fuel →
      searchBehind next base P fuel p = some ((l₂ ++ [base]).find? P) := by
    intro l₂
    induction l₂ with
    | nil =>
      intro l₁ p fuel hl hf
      obtain ⟨f, rfl⟩ : ∃ f, fuel = f + 1 := ⟨fuel - 1, by simp at hf; omega⟩
      by_cases hP : P base = true
      · simp [searchBehind, h.next_last hl, hP]
      · simp [searchBehind, h.next_last hl, hP]
    | cons b l₂ ih =>
      intro l₁ p fuel hl hf
      obtain ⟨f, rfl⟩ : ∃ f, fuel = f + 1 := ⟨fuel - 1, by simp at hf; omega⟩
      obtain ⟨hpb, hbb, hl'⟩ := h.next_cons hl
      by_cases hP : P b = true
      · simp [searchBehind, hpb, hP]
      · have hf' : l₂.length < f := by simp at hf; omega
        simp [searchBehind, hpb, hP, hbb, ih hl' hf']
  obtain ⟨t, rfl⟩ := h.eq_cons
  exact key (List.nil_append _).symm (Nat.lt_of_succ_le hf)

/-- **Walk.** From the base the walk meets the nodes of the ring in order. -/
theorem walk_eq (h : Ring next prev base head l) {fuel : ℕ} (hf : l.length ≤ fuel) :
    walk next base fuel base = l := by
  have key : ∀ {l₂ l₁ : List α} {p : α} {fuel : ℕ}, l = l₁ ++ p :: l₂ → l₂.length < fuel →
      walk next base fuel p = p :: l₂ := by
    intro l₂
    induction l₂ with
    | nil =>
      intro l₁ p fuel hl hf
      obtain ⟨f, rfl⟩ : ∃ f, fuel = f + 1 := ⟨fuel - 1, by simp at hf; omega⟩
      simp [walk, h.next_last hl]
    | cons b l₂ ih =>
      intro l₁ p fuel hl hf
      obtain ⟨f, rfl⟩ : ∃ f, fuel = f + 1 := ⟨fuel - 1, by simp at hf; omega⟩
      obtain ⟨hpb, hbb, hl'⟩ := h.next_cons hl
      have hf' : l₂.length < f := by simp at hf; omega
      simp [walk, hpb, hbb, ih hl' hf']
  obtain ⟨t, rfl⟩ := h.eq_cons
  exact key (List.nil_append _).symm (Nat.lt_of_succ_le hf)

end Decidable

end Ring

end Lib
