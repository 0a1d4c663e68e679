import Chickadee.Lib.Run
import Chickadee.Ptable.Running

/-!
# All processes

Processes make calls and store to their memory, in any order. No page is ever in use by two of them or in use and free,
and what one process does is not seen in the memory of another.
-/

namespace Chickadee.Ptable

open Lib
open Vm (PAGESIZE VA_LOWMAX VA_LOWEND VA_HIGHMIN MEMSIZE_VIRTUAL CONSOLE_ADDR pagesize va_is_canonical)
open Vmiter

/-- `syscall_fork`: the memory, the pages that are left or have been given back, and the child's table. -/
def fork (n : ℕ) (m : Mem) (early_pagetable : ℕ) (news : List ℕ) (parent : ℕ) : Option (Mem × List ℕ × Option ℕ) :=
  match kalloc_pagetable m early_pagetable news with
  | none => some (m, news, none)
  | some (m, child, news) =>
    (copy_memory_ n m parent child news).map fun c =>
      if c.r = 0 then (c.m, c.news, some child) else (c.m, c.news ++ c.freed ++ [child], none)

/-- `free_auto_allocs(pagetable_)` and `kfree(pagetable_)`, from `syscall_exit` -/
def exit (n : ℕ) (m : Mem) (free : List ℕ) (pt : ℕ) : Option (Mem × List ℕ) :=
  (free_auto_allocs n m pt).map fun r => (r.1, free ++ r.2 ++ [pt])

/-- Memory, the page tables of the processes and the pages that are free. -/
structure System where
  m : Mem
  procs : List ℕ
  free : List ℕ

/-- What a process does, by its page table. The kernel starts a process with nothing mapped. -/
inductive Event
  | boot
  | page_alloc (pt addr : ℕ)
  | map_console (pt addr : ℕ)
  | fork (pt : ℕ)
  | exit (pt : ℕ)
  | store (pt va : ℕ) (w : BitVec 64)

/-- Who does it. -/
def Event.actor : Event → Option ℕ
  | boot => none
  | page_alloc pt _ => some pt
  | map_console pt _ => some pt
  | fork pt => some pt
  | exit pt => some pt
  | store pt _ _ => some pt

/-- User code does not get at the upper half. The console is mapped at its address or behind `MEMSIZE_VIRTUAL`: where
it is mapped elsewhere, `exit` passes its page to `kfree`. -/
def Event.Allowed : Event → Prop
  | map_console _ addr => addr < MEMSIZE_VIRTUAL → addr = CONSOLE_ADDR
  | store _ va _ => va ≤ VA_LOWMAX
  | _ => True

namespace System

/-- A step. Of the free pages `kalloc` gives `news`, in that order, and then no more. -/
inductive Step (early_pagetable : ℕ) : System → Event → System → Prop
  | boot {s : System} {news rest news' : List ℕ} {m' : Mem} {pt : ℕ} (hfree : s.free.Perm (news ++ rest))
      (hcall : kalloc_pagetable s.m early_pagetable news = some (m', pt, news')) :
      Step early_pagetable s .boot ⟨m', pt :: s.procs, news' ++ rest⟩
  | page_alloc {s : System} {news rest news' : List ℕ} {m' : Mem} {pt addr : ℕ} {r : ℤ} (hpt : pt ∈ s.procs)
      (hfree : s.free.Perm (news ++ rest)) (hcall : page_alloc s.m news pt addr = some (m', news', r)) :
      Step early_pagetable s (.page_alloc pt addr) ⟨m', s.procs, news' ++ rest⟩
  | map_console {s : System} {news rest news' : List ℕ} {m' : Mem} {pt addr : ℕ} {r : ℤ} (hpt : pt ∈ s.procs)
      (hfree : s.free.Perm (news ++ rest)) (hcall : map_console s.m news pt addr = some (m', news', r)) :
      Step early_pagetable s (.map_console pt addr) ⟨m', s.procs, news' ++ rest⟩
  | fork {s : System} {news rest news' : List ℕ} {m' : Mem} {pt n : ℕ} {child : Option ℕ} (hpt : pt ∈ s.procs)
      (hfree : s.free.Perm (news ++ rest))
      (hcall : fork n s.m early_pagetable news pt = some (m', news', child)) :
      Step early_pagetable s (.fork pt) ⟨m', child.toList ++ s.procs, news' ++ rest⟩
  | exit {s : System} {free' : List ℕ} {m' : Mem} {pt n : ℕ} (hpt : pt ∈ s.procs)
      (hcall : exit n s.m s.free pt = some (m', free')) :
      Step early_pagetable s (.exit pt) ⟨m', s.procs.erase pt, free'⟩
  | store {s : System} {pt va : ℕ} {w : BitVec 64} (hpt : pt ∈ s.procs) :
      Step early_pagetable s (.store pt va w) ⟨store s.m pt va w, s.procs, s.free⟩

/-- The pages that a process has. -/
def owns (s : System) (pt : ℕ) : Set ℕ := {t | pt ∈ s.procs ∧ t ∈ uses s.m pt}

end System

/-- The tables of `early_pagetable` are in `K`, and the pages of `kalloc` are in `pool`. -/
structure Kernel (m : Mem) (early_pagetable : ℕ) (K pool : Set ℕ) : Prop where
  tree : IsTree m early_pagetable
  tables : ∀ x l t, tableAt m early_pagetable x l = some t → t ∈ K
  inHighmem : ∀ t ∈ K, t < HIGHMEM_SIZE
  page : ∀ t ∈ pool, t % PAGESIZE = 0
  lt : ∀ t ∈ pool, t < 0x100000000
  notKernel : ∀ t ∈ pool, t ∉ K ∧ t ≠ CONSOLE_ADDR
  console : CONSOLE_ADDR ∉ K

section

variable {K pool : Set ℕ} {m m' : Mem} {early_pagetable pt p t : ℕ} {f g : ℕ → BitVec 64} {news news' : List ℕ}

/-! ## A new table -/

theorem Kernel.congr (h : Kernel m early_pagetable K pool) (hm : ∀ t ∈ K, m' t = m t) :
    Kernel m' early_pagetable K pool := by
  have htables := tableAt_frame fun x l t _ ht => hm t (h.tables x l t ht)
  refine ⟨h.tree.congr fun k d hd => ?_, fun x l t ht => ?_, h.inHighmem, h.page, h.lt, h.notKernel, h.console⟩
  · rw [node_eq_tableAt hd, node_eq_tableAt hd, htables]
  · rw [htables] at ht
    exact h.tables x l t ht

/-- What `kalloc_pagetable` does. -/
structure NewTable (m : Mem) (early_pagetable pt : ℕ) (m' : Mem) : Prop where
  blank : ∀ i < 256, m' pt i = 0#64
  upper : ∀ i, 256 ≤ i → m' pt i = m early_pagetable i
  frame : ∀ u, u ≠ pt → m' u = m u

theorem kalloc_cases (h : kalloc_pagetable m early_pagetable news = some (m', pt, news')) :
    news = pt :: news' ∧ NewTable m early_pagetable pt m' := by
  unfold kalloc_pagetable at h
  cases news with
  | nil => cases h
  | cons q news =>
    cases h
    refine ⟨rfl, fun i hi => ?_, fun i hi => ?_, fun u hu => ?_⟩
    · simp [hi]
    · simp [Nat.not_lt.2 hi]
    · funext i
      simp [hu]

/-- Below a new table are tables of the kernel. -/
theorem NewTable.node (h : NewTable m early_pagetable pt m') (hk : Kernel m early_pagetable K pool) (hpt : pt ∈ pool)
    {x d : ℕ} (hd : d < 3) (ht : Trie.node subtable digit m' pt x (d + 1) = some t) :
    Trie.node subtable digit m early_pagetable x (d + 1) = some t ∧ t ∈ K := by
  have hin : ∀ e t, e ≤ 3 → Trie.node subtable digit m early_pagetable x e = some t → t ∈ K := by
    intro e t he hnode
    rw [node_eq_tableAt he] at hnode
    exact hk.tables x _ t hnode
  have hnode : Trie.node subtable digit m early_pagetable x (d + 1) = some t := by
    refine Trie.node_of_root (fun u hu => ?_) (fun e u _ he hu => h.frame u ?_) ht
    · by_cases hi : digit x 0 < 256
      · rw [h.blank _ hi, subtable_zero] at hu
        cases hu
      · rwa [h.upper _ (by omega)] at hu
    · rintro rfl
      exact (hk.notKernel _ hpt).1 (hin e _ (by omega) hu)
  exact ⟨hnode, hin _ t (by omega) hnode⟩

theorem NewTable.isTree (h : NewTable m early_pagetable pt m') (hk : Kernel m early_pagetable K pool) (hpt : pt ∈ pool) :
    IsTree m' pt := by
  intro x x' d d' t _ hpos hd hd' ht ht'
  obtain ⟨e, rfl⟩ : ∃ e, d = e + 1 := ⟨d - 1, by omega⟩
  obtain ⟨hnode, hin⟩ := h.node hk hpt (by omega) ht
  cases d' with
  | zero =>
    cases ht'
    exact absurd hin (hk.notKernel _ hpt).1
  | succ e' => exact hk.tree trivial hpos hd hd' hnode (h.node hk hpt (by omega) ht').1

theorem NewTable.tables (h : NewTable m early_pagetable pt m') (hk : Kernel m early_pagetable K pool) (hpt : pt ∈ pool)
    (x l t : ℕ) (ht : tableAt m' pt x l = some t) : t = pt ∨ t ∈ K := by
  unfold tableAt at ht
  cases hd : 3 - l with
  | zero =>
    rw [hd] at ht
    cases ht
    exact .inl rfl
  | succ d =>
    rw [hd] at ht
    exact .inr (h.node hk hpt (by omega) ht).2

/-- The process of a new table. -/
theorem NewTable.running (h : NewTable m early_pagetable pt m') (hk : Kernel m early_pagetable K pool)
    (hpt : pt ∈ pool) : Running K m' pt fun _ => 0#64 := by
  refine ⟨space_blank (h.isTree hk hpt) h.blank, fun x l t ht => ?_, fun p _ q _ hp => ?_, fun p _ hp => ?_,
    fun p _ huser => ?_⟩
  · exact (h.tables hk hpt x l t ht).imp_right .inr
  · exact absurd hp (not_owned_of_zero rfl)
  · exact absurd hp (not_owned_of_zero rfl)
  · exact absurd huser not_isUser_zero

/-- A child that `copy_memory_` has filled. -/
theorem ChildInv.running {child : ℕ} {tables : List ℕ} (h : ChildInv m child news m' news' g tables (owned g NPAGES))
    (hnews : news.Nodup) (hroot : child ∉ news) (hnew : ∀ x l t, tableAt m child x l = some t → t = child ∨ t ∈ K)
    (halike : Alike f g) (hend : ∀ j, NPAGES ≤ j → g j = 0#64)
    (hcons : ∀ p < NPAGES, IsUser (f p) → entryPa (f p) = CONSOLE_ADDR → p = CONSOLE_PAGE) :
    Running K m' child g ∧ ∀ t ∈ uses m' child, t = child ∨ t ∈ tables ++ owned g NPAGES := by
  have hnodup := List.nodup_append.1 (List.nodup_append.1 (h.nodup hnews)).1
  have hpage : ∀ p, Owned g p → p < NPAGES := by
    intro p howned
    by_contra hp
    exact not_owned_of_zero (hend p (by omega)) howned
  have hin : ∀ p, Owned g p → entryPa (g p) ∈ owned g NPAGES :=
    fun p howned => mem_owned.2 ⟨p, hpage p howned, howned, rfl⟩
  refine ⟨⟨h.space, fun x l t ht => ?_, fun p _ q _ hop hoq heq => ?_, fun p _ howned => ⟨?_, fun hlow => ?_⟩,
    fun p hp huser hpa => ?_⟩, fun t ht => ?_⟩
  · rcases h.old x l t ht with hold | htable
    · exact (hnew x l t hold).imp_right .inr
    · exact .inr (.inl ((h.low t).2 htable))
  · exact pagesOf_nodup_iff.1 hnodup.2.1 p (hpage p hop) q (hpage q hoq) hop hoq heq
  · intro heq
    have hmem := h.mem_news (.inr (.inl (hin p howned)))
    rw [heq] at hmem
    exact hroot hmem
  · exact hnodup.2.2 _ ((h.low _).1 hlow) _ (hin p howned) rfl
  · obtain ⟨huser', hsame⟩ := halike p huser
    exact hcons p hp huser' (hsame.1 hpa)
  · rcases (mem_uses_iff h.space).1 ht with heq | hlow | ⟨p, -, howned, rfl⟩
    · exact .inl heq
    · exact .inr (List.mem_append_left _ ((h.low t).1 hlow))
    · exact .inr (List.mem_append_right _ (hin p howned))

end

namespace System

/-- The invariant: every process runs in pages of its own. -/
structure Inv (early_pagetable : ℕ) (K pool : Set ℕ) (s : System) : Prop where
  kernel : Kernel s.m early_pagetable K pool
  procs : s.procs.Nodup
  nodup : s.free.Nodup
  free : ∀ t ∈ s.free, t ∈ pool
  running : ∀ pt ∈ s.procs, ∃ f, Running K s.m pt f
  pool : ∀ pt ∈ s.procs, ∀ t ∈ uses s.m pt, t ∈ pool
  apart : Apart s.owns {t | t ∈ s.free}

/-- What a step may do on account of process `i`: it writes to what `i` has, to free pages and to the console, and moves
pages between `i` and the free ones. -/
structure Moves (K : Set ℕ) (i : ℕ) (s s' : System) : Prop where
  frame : ∀ t, t ∉ s.free → t ∉ s.owns i → t ≠ CONSOLE_ADDR → s'.m t = s.m t
  others : ∀ q, q ≠ i → (q ∈ s'.procs ↔ q ∈ s.procs)
  procs : s'.procs.Nodup
  nodup : s'.free.Nodup
  free : ∀ t ∈ s'.free, t ∈ s.free ∨ t ∈ s.owns i
  running : i ∈ s'.procs → ∃ f, Running K s'.m i f
  owns : i ∈ s'.procs → ∀ t ∈ uses s'.m i, (t ∈ s.free ∨ t ∈ s.owns i) ∧ t ∉ s'.free

section

variable {K pool : Set ℕ} {early_pagetable i q t : ℕ} {s s' : System} {f : ℕ → BitVec 64}

theorem Inv.owns_pool (h : Inv early_pagetable K pool s) (ht : t ∈ s.owns q) : t ∈ pool := h.pool q ht.1 t ht.2

/-- What is in the pool, in use or free, is no page of the kernel. -/
theorem Inv.notKernel (h : Inv early_pagetable K pool s) (hk : t ∈ K) : t ∉ s.free ∧ t ∉ s.owns i ∧ t ≠ CONSOLE_ADDR := by
  refine ⟨fun hin => ?_, fun hin => ?_, ?_⟩
  · exact (h.kernel.notKernel t (h.free t hin)).1 hk
  · exact (h.kernel.notKernel t (h.owns_pool hin)).1 hk
  · rintro rfl
    exact h.kernel.console hk

/-- Another process has its pages as they were. -/
theorem Inv.unseen (h : Inv early_pagetable K pool s) (hmoves : Moves K i s s') (hq : q ∈ s.procs) (hqi : q ≠ i) :
    (∀ t ∈ uses s.m q, s'.m t = s.m t) ∧ (∀ f, Running K s.m q f → Running K s'.m q f) ∧
      uses s'.m q = uses s.m q ∧ ∀ x ≤ VA_LOWMAX, translate s'.m q x = translate s.m q x := by
  have hpages : ∀ t ∈ uses s.m q, s'.m t = s.m t := by
    intro t ht
    have howns : t ∈ s.owns q := ⟨hq, ht⟩
    refine hmoves.frame t (h.apart.notMem_free howns) (h.apart.notMem_owner hqi howns) ?_
    exact (h.kernel.notKernel t (h.owns_pool howns)).2
  have htables : ∀ t, t = q ∨ IsLowTable s.m q t ∨ t ∈ K → s'.m t = s.m t := by
    rintro t (rfl | hlow | hk)
    · exact hpages t (.inl rfl)
    · exact hpages t (.inr (.inl hlow))
    · obtain ⟨hfree, howns, hne⟩ := h.notKernel hk
      exact hmoves.frame t hfree howns hne
  obtain ⟨f, hrun⟩ := h.running q hq
  obtain ⟨-, huses, htranslate⟩ := hrun.congr htables
  exact ⟨hpages, fun f hrun => (hrun.congr htables).1, huses, htranslate⟩

/-- **The invariant is kept.** -/
theorem Inv.moves (h : Inv early_pagetable K pool s) (hmoves : Moves K i s s') : Inv early_pagetable K pool s' := by
  have hin : ∀ t, t ∈ s.free ∨ t ∈ s.owns i → t ∈ pool := by
    rintro t (hfree | howns)
    · exact h.free t hfree
    · exact h.owns_pool howns
  have hother : ∀ q, q ≠ i → s'.owns q = s.owns q := by
    intro q hqi
    ext t
    unfold System.owns
    rw [Set.mem_setOf_eq, Set.mem_setOf_eq, hmoves.others q hqi]
    refine and_congr_right fun hq => ?_
    rw [(h.unseen hmoves hq hqi).2.2.1]
  refine ⟨h.kernel.congr fun t hk => ?_, hmoves.procs, hmoves.nodup, fun t ht => hin t (hmoves.free t ht), fun q hq => ?_,
    fun q hq t ht => ?_, h.apart.step i (fun q hqi => (hother q hqi).subset) ?_ ?_ ?_⟩
  · obtain ⟨hfree, howns, hne⟩ := h.notKernel hk
    exact hmoves.frame t hfree howns hne
  · by_cases hqi : q = i
    · subst hqi
      exact hmoves.running hq
    · have hold := (hmoves.others q hqi).1 hq
      obtain ⟨f, hrun⟩ := h.running q hold
      exact ⟨f, (h.unseen hmoves hold hqi).2.1 f hrun⟩
  · by_cases hqi : q = i
    · subst hqi
      exact hin t (hmoves.owns hq t ht).1
    · have howns : t ∈ s'.owns q := ⟨hq, ht⟩
      rw [hother q hqi] at howns
      exact h.owns_pool howns
  · rintro t ⟨hi, ht⟩
    exact (hmoves.owns hi t ht).1.symm
  · exact fun t ht => hmoves.free t ht
  · exact Set.disjoint_left.2 fun t ht => (hmoves.owns ht.1 t ht.2).2

/-! ## The calls of one process -/

variable {pt va n : ℕ} {news rest news' : List ℕ} {m' : Mem} {w : BitVec 64}

theorem Inv.spare (h : Inv early_pagetable K pool s) (hpt : pt ∈ s.procs) (hfree : s.free.Perm (news ++ rest)) :
    Spare K s.m pt news := by
  have hin : ∀ t ∈ news, t ∈ s.free := fun t ht => hfree.mem_iff.2 (List.mem_append_left rest ht)
  refine ⟨(List.nodup_append.1 (hfree.nodup_iff.1 h.nodup)).1, fun t ht => h.kernel.page t (h.free t (hin t ht)),
    fun t ht => h.kernel.lt t (h.free t (hin t ht)), fun t ht huses => ?_,
    fun t ht => (h.kernel.notKernel t (h.free t (hin t ht))).1, fun hc => ?_⟩
  · have howns : t ∈ s.owns pt := ⟨hpt, huses⟩
    exact h.apart.notMem_free howns (hin t ht)
  · exact (h.kernel.notKernel _ (h.free _ (hin _ hc))).2 rfl

/-- What a process owns, by what it uses. -/
theorem notMem_uses (hpt : pt ∈ s.procs) (ht : t ∉ s.owns pt) : t ∉ uses s.m pt := fun huses => ht ⟨hpt, huses⟩

theorem Inv.grows (h : Inv early_pagetable K pool s) (hpt : pt ∈ s.procs) (hfree : s.free.Perm (news ++ rest))
    (hgrows : Grows K s.m pt news m' news') : Moves K pt s ⟨m', s.procs, news' ++ rest⟩ := by
  have hnodup := hfree.nodup_iff.1 h.nodup
  have hsub : (news' ++ rest).Sublist (news ++ rest) := hgrows.left.append (.refl rest)
  have hin : ∀ t ∈ news' ++ rest, t ∈ s.free := fun t ht => hfree.mem_iff.2 (hsub.subset ht)
  refine ⟨fun t hnot howns _ => ?_, fun q _ => Iff.rfl, h.procs, hnodup.sublist hsub, fun t ht => .inl (hin t ht),
    fun _ => hgrows.running, fun _ t ht => ?_⟩
  · have huses := notMem_uses hpt howns
    exact hgrows.frame t (fun ht => hnot (hfree.mem_iff.2 (List.mem_append_left rest ht))) (fun heq => huses (.inl heq))
      fun hlow => huses (.inr (.inl hlow))
  · rcases hgrows.uses ht with hold | ⟨hnews, hnew⟩
    · have howns : t ∈ s.owns pt := ⟨hpt, hold⟩
      exact ⟨.inr howns, fun ht => h.apart.notMem_free howns (hin t ht)⟩
    · refine ⟨.inl (hfree.mem_iff.2 (List.mem_append_left rest hnews)), fun ht => ?_⟩
      rcases List.mem_append.1 ht with hleft | hrest
      · exact hnew hleft
      · exact (List.nodup_append.1 hnodup).2.2 t hnews t hrest rfl

theorem Inv.store (h : Inv early_pagetable K pool s) (hpt : pt ∈ s.procs) (hva : va ≤ VA_LOWMAX) :
    Moves K pt s ⟨store s.m pt va w, s.procs, s.free⟩ := by
  obtain ⟨f, hrun⟩ := h.running pt hpt
  have htables := hrun.store (w := w) hva (fun t ht => h.kernel.notKernel t (h.pool pt hpt t ht)) h.kernel.console
  obtain ⟨hrun', huses, -⟩ := hrun.congr htables
  refine ⟨fun t _ howns hne => hrun.store_frame hva (fun huser => howns ⟨hpt, .inr (.inr huser)⟩) hne,
    fun q _ => Iff.rfl, h.procs, h.nodup, fun t ht => .inl ht, fun _ => ⟨f, hrun'⟩, fun _ t ht => ?_⟩
  rw [huses] at ht
  have howns : t ∈ s.owns pt := ⟨hpt, ht⟩
  exact ⟨.inr howns, h.apart.notMem_free howns⟩

/-! ## A process ends -/

theorem Inv.process (h : Inv early_pagetable K pool s) (hpt : pt ∈ s.procs) (hrun : Running K s.m pt f) :
    Process s.m pt f := by
  have hprivate : ∀ p < NPAGES, Private f p → Owned f p :=
    fun p hp hpr => ⟨hpr.1, fun hpa => hpr.2 (hrun.console p hp hpr.1 hpa)⟩
  have hlast : ∀ p < NPAGES, p ≤ LASTPAGE := fun p hp => le_trans hp.le (by decide)
  refine ⟨hrun.space, ⟨fun k k' d d' t _ hpos hd hd' ht ht' => hrun.space.tree trivial hpos hd hd' ht ht',
    fun x l t _ ht => ?_⟩, pagesOf_nodup_iff.2 fun p hp q hq hPp hPq heq => ?_, fun t ht hlow => ?_⟩
  · have hlt : ∀ t ∈ uses s.m pt, t < HIGHMEM_SIZE :=
      fun t ht => lt_trans (h.kernel.lt t (h.pool pt hpt t ht)) (by decide)
    rcases hrun.tables x l t ht with rfl | hlow | hk
    · exact hlt t (.inl rfl)
    · exact hlt t (.inr (.inl hlow))
    · exact h.kernel.inHighmem t hk
  · exact hrun.distinct p (hlast p hp) q (hlast q hq) (hprivate p hp hPp) (hprivate q hq hPq) heq
  · obtain ⟨p, hp, hpr, rfl⟩ := mem_frames.1 ht
    exact (hrun.notTable p (hlast p hp) (hprivate p hp hpr)).2 hlow

theorem Inv.exit (h : Inv early_pagetable K pool s) (hpt : pt ∈ s.procs) :
    ∃ n m' free', exit n s.m s.free pt = some (m', free') ∧ Moves K pt s ⟨m', s.procs.erase pt, free'⟩ := by
  obtain ⟨f, hrun⟩ := h.running pt hpt
  obtain ⟨n, m', tables, hcall, hnodup, hmem, hframe⟩ := (h.process hpt hrun).free_auto_allocs
  have hroot : pt ∈ s.owns pt := ⟨hpt, .inl rfl⟩
  have hfreed : ∀ t ∈ frames f NPAGES ++ tables, t ∈ s.owns pt ∧ t ≠ pt := by
    intro t ht
    rcases List.mem_append.1 ht with hframe | htable
    · obtain ⟨p, hp, hpr, rfl⟩ := mem_frames.1 hframe
      have hlast : p ≤ LASTPAGE := le_trans hp.le (by decide)
      have howned : Owned f p := ⟨hpr.1, fun hpa => hpr.2 (hrun.console p hp hpr.1 hpa)⟩
      exact ⟨⟨hpt, hrun.page_uses hlast howned⟩, (hrun.notTable p hlast howned).1⟩
    · have hlow := (hmem t).1 htable
      refine ⟨⟨hpt, .inr (.inl hlow)⟩, ?_⟩
      rintro rfl
      exact hrun.space.root_not_low hlow
  refine ⟨n, m', _, by unfold Ptable.exit; rw [hcall, Option.map_some], ⟨fun t _ howns _ => ?_,
    fun q hq => List.mem_erase_of_ne hq, h.procs.erase pt, ?_, fun t ht => ?_, fun hin => ?_, fun hin => ?_⟩⟩
  · have huses := notMem_uses hpt howns
    exact hframe t (fun heq => huses (.inl heq)) fun hlow => huses (.inr (.inl hlow))
  · refine List.nodup_append.2 ⟨List.nodup_append.2 ⟨h.nodup, hnodup, fun a ha b hb => ?_⟩, List.nodup_singleton pt,
      fun a ha b hb => ?_⟩
    · rintro rfl
      exact h.apart.notMem_free (hfreed a hb).1 ha
    · rw [List.mem_singleton.1 hb]
      rcases List.mem_append.1 ha with hin | hin
      · rintro rfl
        exact h.apart.notMem_free hroot hin
      · exact (hfreed a hin).2
  · rcases List.mem_append.1 ht with hin | hin
    · exact (List.mem_append.1 hin).imp_right fun hin => (hfreed t hin).1
    · rw [List.mem_singleton.1 hin]
      exact .inr hroot
  · exact absurd hin h.procs.not_mem_erase
  · exact absurd hin h.procs.not_mem_erase

/-! ## A process starts -/

variable {parent child : ℕ} {tables : List ℕ} {g : ℕ → BitVec 64} {m₁ : Mem}

/-- A free page is in the pool, and it is no process. -/
theorem Inv.of_free (h : Inv early_pagetable K pool s) (ht : t ∈ s.free) : t ∈ pool ∧ t ∉ s.procs ∧ ∀ q, t ∉ s.owns q := by
  have howns : ∀ q, t ∉ s.owns q := fun q hq => h.apart.notMem_free hq ht
  exact ⟨h.free t ht, fun hin => howns t ⟨hin, .inl rfl⟩, howns⟩

/-- A step on account of a process that was not there. -/
theorem Inv.born (h : Inv early_pagetable K pool s) (hchild : child ∈ s.free) {procs free : List ℕ}
    (hframe : ∀ t, t ∉ s.free → m' t = s.m t) (hprocs : procs = s.procs ∨ procs = child :: s.procs)
    (hnodup : free.Nodup) (hfree : ∀ t ∈ free, t ∈ s.free)
    (hborn : procs = child :: s.procs → (∃ g, Running K m' child g) ∧ ∀ t ∈ uses m' child, t ∈ s.free ∧ t ∉ free) :
    Moves K child s ⟨m', procs, free⟩ := by
  have hnot := (h.of_free hchild).2.1
  have hcons : child ∈ procs → procs = child :: s.procs := by
    intro hin
    rcases hprocs with rfl | heq
    · exact absurd hin hnot
    · exact heq
  refine ⟨fun t ht _ _ => hframe t ht, fun q hq => ?_, ?_, hnodup, fun t ht => .inl (hfree t ht),
    fun hin => (hborn (hcons hin)).1, fun hin t ht => ?_⟩
  · rcases hprocs with rfl | rfl
    · exact Iff.rfl
    · rw [List.mem_cons, or_iff_right hq]
  · rcases hprocs with rfl | rfl
    · exact h.procs
    · exact List.nodup_cons.2 ⟨hnot, h.procs⟩
  · obtain ⟨hin, hout⟩ := (hborn (hcons hin)).2 t ht
    exact ⟨.inl hin, hout⟩

theorem Inv.boot (h : Inv early_pagetable K pool s) (hfree : s.free.Perm (news ++ rest))
    (hcall : kalloc_pagetable s.m early_pagetable news = some (m', pt, news')) :
    pt ∈ s.free ∧ Moves K pt s ⟨m', pt :: s.procs, news' ++ rest⟩ := by
  obtain ⟨rfl, hnew⟩ := kalloc_cases hcall
  have hin : ∀ t ∈ pt :: (news' ++ rest), t ∈ s.free := fun t ht => hfree.mem_iff.2 ht
  have hnodup : (pt :: (news' ++ rest)).Nodup := hfree.nodup_iff.1 h.nodup
  have hpt := hin pt List.mem_cons_self
  have hrun := hnew.running h.kernel (h.of_free hpt).1
  refine ⟨hpt, h.born hpt (fun t ht => hnew.frame t ?_) (.inr rfl) (List.nodup_cons.1 hnodup).2
    (fun t ht => hin t (List.mem_cons_of_mem pt ht)) fun _ => ⟨⟨_, hrun⟩, fun t ht => ?_⟩⟩
  · rintro rfl
    exact ht hpt
  · rcases (mem_uses_iff hrun.space).1 ht with rfl | hlow | ⟨p, -, howned, -⟩
    · exact ⟨hpt, (List.nodup_cons.1 hnodup).1⟩
    · exact absurd hlow (not_isLowTable_of_blank hnew.blank t)
    · exact absurd howned (not_owned_of_zero rfl)

/-- `fork` may rely on what it is to rely on. -/
theorem Inv.forkable (h : Inv early_pagetable K pool s) (hpt : parent ∈ s.procs)
    (hfree : s.free.Perm (child :: news ++ rest)) (hnew : NewTable s.m early_pagetable child m₁)
    (hrun : Running K s.m parent f) : Running K m₁ parent f ∧ Forkable m₁ parent child f news := by
  have hin : ∀ t ∈ child :: news, t ∈ s.free := fun t ht => hfree.mem_iff.2 (List.mem_append_left rest ht)
  have hchild := hin child List.mem_cons_self
  have hnodup : (child :: news).Nodup := (List.nodup_append.1 (hfree.nodup_iff.1 h.nodup)).1
  have hpool : ∀ t ∈ child :: news, t ∈ pool := fun t ht => h.free t (hin t ht)
  have huses : ∀ t ∈ child :: news, t ∉ uses s.m parent := by
    intro t ht hu
    exact h.apart.notMem_free (show t ∈ s.owns parent from ⟨hpt, hu⟩) (hin t ht)
  have hkernel : ∀ t ∈ child :: news, t ∉ K := fun t ht => (h.kernel.notKernel t (hpool t ht)).1
  have hframe : ∀ t, t = parent ∨ IsLowTable s.m parent t ∨ t ∈ K → m₁ t = s.m t := by
    intro t ht
    refine hnew.frame t ?_
    rintro rfl
    rcases ht with heq | hlow | hk
    · exact huses t List.mem_cons_self (.inl heq)
    · exact huses t List.mem_cons_self (.inr (.inl hlow))
    · exact hkernel t List.mem_cons_self hk
  obtain ⟨hrun₁, huses₁, -⟩ := hrun.congr hframe
  have htable : ∀ x l t, tableAt m₁ parent x l = some t → t ∉ child :: news := by
    intro x l t ht hmem
    rcases hrun₁.tables x l t ht with heq | hlow | hk
    · exact huses t hmem (.inl heq)
    · refine huses t hmem ?_
      rw [← huses₁]
      exact .inr (.inl hlow)
    · exact hkernel t hmem hk
  have htables := hnew.tables h.kernel (h.of_free hchild).1
  refine ⟨hrun₁, hrun₁.space, hnew.isTree h.kernel (hpool child List.mem_cons_self), ⟨?_, fun x l t _ ht => ?_⟩, hnew.blank,
    fun x l t _ ht => ?_, ⟨fun q hq => ?_, (List.nodup_cons.1 hnodup).2, fun q hq x l ht => ?_⟩,
    (List.nodup_cons.1 hnodup).1, fun q hq => h.kernel.lt q (hpool q (List.mem_cons_of_mem child hq)),
    fun p hp howned => ?_, fun hc => ?_⟩
  · exact fun k k' d d' t _ hpos hd hd' ht ht' =>
      hnew.isTree h.kernel (hpool child List.mem_cons_self) trivial hpos hd hd' ht ht'
  · rcases htables x l t ht with rfl | hk
    · exact lt_trans (h.kernel.lt t (hpool t List.mem_cons_self)) (by decide)
    · exact h.kernel.inHighmem t hk
  · have hnot := htable x l t ht
    rw [List.mem_cons, not_or] at hnot
    exact hnot
  · exact h.kernel.page q (hpool q (List.mem_cons_of_mem child hq))
  · rcases htables x l q ht with rfl | hk
    · exact (List.nodup_cons.1 hnodup).1 hq
    · exact hkernel q (List.mem_cons_of_mem child hq) hk
  · have hpage := hrun.page_uses (le_trans hp.le (by decide)) howned
    refine ⟨fun heq => ?_, fun hmem => huses _ (List.mem_cons_of_mem child hmem) hpage⟩
    rw [heq] at hpage
    exact huses child List.mem_cons_self hpage
  · exact (h.kernel.notKernel _ (hpool _ (List.mem_cons_of_mem child hc))).2 rfl

theorem fork_unique {n' : ℕ} {early_pagetable : ℕ} {m : Mem} {r r' : Mem × List ℕ × Option ℕ}
    (h : Ptable.fork n m early_pagetable news parent = some r) (h' : Ptable.fork n' m early_pagetable news parent = some r') :
    r = r' := by
  unfold Ptable.fork at h h'
  split at h
  · rename_i hnone
    rw [hnone] at h'
    exact Option.some.inj (h.symm.trans h')
  · rename_i hsome
    rw [hsome] at h'
    simp only [Option.map_eq_some_iff] at h h'
    obtain ⟨c, hcopy, rfl⟩ := h
    obtain ⟨c', hcopy', rfl⟩ := h'
    rw [copy_memory_unique hcopy hcopy']

/-- **`fork`** returns. It leaves a child or gives back what it has taken. -/
theorem Inv.fork (h : Inv early_pagetable K pool s) (hpt : parent ∈ s.procs) (hfree : s.free.Perm (news ++ rest)) :
    ∃ n m' news' child, Ptable.fork n s.m early_pagetable news parent = some (m', news', child) ∧
      ∃ i, (i = parent ∨ i ∉ s.procs) ∧ Moves K i s ⟨m', child.toList ++ s.procs, news' ++ rest⟩ := by
  obtain ⟨f, hrun⟩ := h.running parent hpt
  cases hkalloc : kalloc_pagetable s.m early_pagetable news with
  | none =>
    refine ⟨0, s.m, news, none, ?_, parent, .inl rfl, h.grows hpt hfree hrun.grows_refl⟩
    unfold Ptable.fork
    rw [hkalloc]
  | some r =>
    obtain ⟨m₁, child, left⟩ := r
    obtain ⟨rfl, hnew⟩ := kalloc_cases hkalloc
    obtain ⟨hrun₁, hfork⟩ := h.forkable hpt hfree hnew hrun
    have hin : ∀ t ∈ child :: (left ++ rest), t ∈ s.free := fun t ht => hfree.mem_iff.2 ht
    have hnodup : (child :: (left ++ rest)).Nodup := hfree.nodup_iff.1 h.nodup
    have hchild := hin child List.mem_cons_self
    obtain ⟨n, c, hcopy, hframe, hcases⟩ := hfork.copied hrun₁.console
    have hkept : ∀ t, t ∉ s.free → c.m t = s.m t := by
      intro t ht
      have hne : t ≠ child := by
        rintro rfl
        exact ht hchild
      rw [hframe t (fun hmem => ht (hin t (List.mem_cons_of_mem child (List.mem_append_left rest hmem)))) hne,
        hnew.frame t hne]
    rcases hcases with ⟨hr, hfreed, -, g, tables, halike, hend, hinv⟩ | ⟨hr, hnews, lost, hledger, -⟩
    · have hledger : (tables ++ owned g NPAGES ++ (c.news ++ rest)).Perm (left ++ rest) := by
        rw [← List.append_assoc]
        exact hinv.ledger.append_right rest
      have hnodup' := hledger.nodup_iff.2 (List.nodup_cons.1 hnodup).2
      obtain ⟨hrun', huses⟩ := hinv.running hfork.fresh.nodup hfork.root
        (hnew.tables h.kernel (h.of_free hchild).1) halike hend hrun₁.console
      refine ⟨n, c.m, c.news, some child, ?_, child, .inr (h.of_free hchild).2.1,
        h.born hchild hkept (.inr rfl) (List.nodup_append.1 hnodup').2.1 (fun t ht => ?_) fun _ => ⟨⟨g, hrun'⟩, fun t ht => ?_⟩⟩
      · unfold Ptable.fork
        rw [hkalloc]
        simp only
        rw [hcopy, Option.map_some, if_pos hr]
      · exact hin t (List.mem_cons_of_mem child (hledger.mem_iff.1 (List.mem_append_right _ ht)))
      · rcases huses t ht with rfl | hheld
        · refine ⟨hchild, fun hmem => (List.nodup_cons.1 hnodup).1 ?_⟩
          exact hledger.mem_iff.1 (List.mem_append_right _ hmem)
        · refine ⟨hin t (List.mem_cons_of_mem child (hledger.mem_iff.1 (List.mem_append_left _ hheld))), fun hmem => ?_⟩
          exact (List.nodup_append.1 hnodup').2.2 t hheld t hmem rfl
    · have hledger' : (lost ++ (c.news ++ c.freed ++ [child] ++ rest)).Perm (child :: (left ++ rest)) := by
        refine List.perm_iff_count.2 fun a => ?_
        have hcount := List.perm_iff_count.1 hledger a
        simp only [hnews, List.count_append, List.count_cons, List.count_nil] at hcount ⊢
        omega
      have hnodup' := hledger'.nodup_iff.2 hnodup
      refine ⟨n, c.m, c.news ++ c.freed ++ [child], none, ?_, child, .inr (h.of_free hchild).2.1,
        h.born hchild hkept (.inl rfl) (List.nodup_append.1 hnodup').2.1 (fun t ht => ?_) fun heq => ?_⟩
      · unfold Ptable.fork
        rw [hkalloc]
        simp only
        rw [hcopy, Option.map_some, if_neg (by rw [hr]; decide)]
      · exact hin t (hledger'.mem_iff.1 (List.mem_append_right _ ht))
      · have hlength := congrArg List.length heq
        simp at hlength

/-! ## Runs -/

theorem exit_unique {n' : ℕ} {m : Mem} {free : List ℕ} {r r' : Mem × List ℕ} (h : Ptable.exit n m free pt = some r)
    (h' : Ptable.exit n' m free pt = some r') : r = r' := by
  unfold Ptable.exit at h h'
  obtain ⟨a, hfree, rfl⟩ := Option.map_eq_some_iff.1 h
  obtain ⟨a', hfree', rfl⟩ := Option.map_eq_some_iff.1 h'
  rw [free_auto_allocs_unique hfree hfree']

/-- A step is on account of the process that makes it or of one that was not there. -/
theorem Inv.step {e : Event} (h : Inv early_pagetable K pool s) (hok : e.Allowed) (hstep : Step early_pagetable s e s') :
    ∃ i, (e.actor = some i ∨ i ∉ s.procs) ∧ Moves K i s s' := by
  cases hstep with
  | boot hfree hcall =>
    obtain ⟨hin, hmoves⟩ := h.boot hfree hcall
    exact ⟨_, .inr (h.of_free hin).2.1, hmoves⟩
  | page_alloc hpt hfree hcall =>
    obtain ⟨f, hrun⟩ := h.running _ hpt
    obtain ⟨m', news', r, hcall', hgrows⟩ := hrun.page_alloc (h.spare hpt hfree) _
    rw [hcall'] at hcall
    cases hcall
    exact ⟨_, .inl rfl, h.grows hpt hfree hgrows⟩
  | map_console hpt hfree hcall =>
    obtain ⟨f, hrun⟩ := h.running _ hpt
    obtain ⟨m', news', r, hcall', hgrows⟩ := hrun.map_console (h.spare hpt hfree) hok
    rw [hcall'] at hcall
    cases hcall
    exact ⟨_, .inl rfl, h.grows hpt hfree hgrows⟩
  | fork hpt hfree hcall =>
    obtain ⟨n', m', news', child, hcall', i, hi, hmoves⟩ := h.fork hpt hfree
    cases fork_unique hcall hcall'
    refine ⟨i, hi.imp_left ?_, hmoves⟩
    rintro rfl
    rfl
  | exit hpt hcall =>
    obtain ⟨n', m', free', hcall', hmoves⟩ := h.exit hpt
    cases exit_unique hcall hcall'
    exact ⟨_, .inl rfl, hmoves⟩
  | store hpt => exact ⟨_, .inl rfl, h.store hpt hok⟩

/-- The state when the kernel starts: no process, and all pages of `kalloc` free. -/
structure Start (early_pagetable : ℕ) (K pool : Set ℕ) (s : System) : Prop where
  kernel : Kernel s.m early_pagetable K pool
  procs : s.procs = []
  nodup : s.free.Nodup
  free : ∀ t ∈ s.free, t ∈ pool

/-- The states that processes get to. -/
def Reached (early_pagetable : ℕ) (K pool : Set ℕ) : System → Prop :=
  Reach (Start early_pagetable K pool) (Step early_pagetable) fun _ e => e.Allowed

theorem Start.inv (h : Start early_pagetable K pool s) : Inv early_pagetable K pool s := by
  have hnone : ∀ pt, pt ∉ s.procs := by
    intro pt
    rw [h.procs]
    exact List.not_mem_nil
  have howns : s.owns = fun _ => ∅ := by
    funext pt
    exact Set.eq_empty_of_forall_notMem fun t ht => hnone pt ht.1
  refine ⟨h.kernel, by rw [h.procs]; exact List.nodup_nil, h.nodup, h.free, fun pt hpt => absurd hpt (hnone pt),
    fun pt hpt => absurd hpt (hnone pt), ?_⟩
  rw [howns]
  exact Apart.none _

theorem Reached.inv (h : Reached early_pagetable K pool s) : Inv early_pagetable K pool s := by
  refine Reach.invariant (P := Inv early_pagetable K pool) (fun s hs => hs.inv) (fun s e s' hinv hok hstep => ?_) h
  obtain ⟨i, -, hmoves⟩ := hinv.step hok hstep
  exact hinv.moves hmoves

end

end System

/-! Two processes are started, and one of them asks for a page. -/

namespace System

/-- The pages that are left. -/
def left : List ℕ := [0x4000, 0x5000, 0x6000, 0x7000, 0x8000]

end System

end Chickadee.Ptable
