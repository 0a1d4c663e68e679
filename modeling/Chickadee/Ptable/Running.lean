import Chickadee.Lib.Apart
import Chickadee.Ptable.Fork

/-!
# The memory that a process uses

A process uses its page table, the tables of its low half and the pages that user code may access, but for the console.
The upper half is that of the kernel, and its tables belong to no process. Calls of a process take pages from `kalloc`
and write to nothing else that another process uses.
-/

namespace Chickadee.Ptable

open Lib
open Vm (PAGESIZE VA_LOWMAX VA_LOWEND VA_HIGHMIN MEMSIZE_VIRTUAL CONSOLE_ADDR pagesize va_is_canonical)
open Vmiter

abbrev E_INVAL : ℤ := -22

/-- `kalloc_pagetable()`: the memory, the new table and the pages that are left -/
def kalloc_pagetable (m : Mem) (early_pagetable : ℕ) (news : List ℕ) : Option (Mem × ℕ × List ℕ) :=
  match news with
  | [] => none
  | pt :: news =>
    some (fun t i => if t = pt then if i < 256 then 0#64 else m early_pagetable i else m t i, pt, news)

/-- `SYSCALL_PAGE_ALLOC`: the memory, the pages that are left and the result. A page that cannot be mapped is lost. -/
def page_alloc (m : Mem) (news : List ℕ) (pt addr : ℕ) : Option (Mem × List ℕ × ℤ) :=
  if VA_LOWEND ≤ addr ∨ addr % PAGESIZE ≠ 0 then some (m, news, -1)
  else
    match news with
    | [] => some (m, [], -1)
    | pg :: news => (mapAt m news pt addr pg PTE_PWU).map fun r => (r.1, r.2.1, if r.2.2 < 0 then -1 else 0)

/-- `SYSCALL_MAP_CONSOLE` -/
def map_console (m : Mem) (news : List ℕ) (pt addr : ℕ) : Option (Mem × List ℕ × ℤ) :=
  if addr > VA_LOWMAX ∨ addr % PAGESIZE ≠ 0 then some (m, news, E_INVAL)
  else mapAt m news pt addr CONSOLE_ADDR PTE_PWU

/-- A store by user code to an address of the low half. A fault changes nothing. -/
def store (m : Mem) (pt va : ℕ) (w : BitVec 64) : Mem :=
  match translate m pt va with
  | some (pa, perm) =>
    if perm &&& (PTE_W ||| PTE_U) = PTE_W ||| PTE_U then m.write (pa / PAGESIZE * PAGESIZE, pa % PAGESIZE / 8) w else m
  | none => m

/-- The last page of the low half. -/
abbrev LASTPAGE : ℕ := VA_LOWMAX / PAGESIZE

/-- The pages that a process uses. -/
def uses (m : Mem) (pt : ℕ) : Set ℕ := {t | t = pt ∨ IsLowTable m pt t ∨ UserPage m pt t}

/-- A process with the entries `f`. The tables of the upper half are in `K`. -/
structure Running (K : Set ℕ) (m : Mem) (pt : ℕ) (f : ℕ → BitVec 64) : Prop where
  space : Space m pt f
  tables : ∀ x l t, tableAt m pt x l = some t → t = pt ∨ IsLowTable m pt t ∨ t ∈ K
  distinct : ∀ p ≤ LASTPAGE, ∀ q ≤ LASTPAGE, Owned f p → Owned f q → entryPa (f p) = entryPa (f q) → p = q
  notTable : ∀ p ≤ LASTPAGE, Owned f p → entryPa (f p) ≠ pt ∧ ¬IsLowTable m pt (entryPa (f p))
  console : ∀ p < NPAGES, IsUser (f p) → entryPa (f p) = CONSOLE_ADDR → p = CONSOLE_PAGE

/-- Pages that `kalloc` may give while the process runs. -/
structure Spare (K : Set ℕ) (m : Mem) (pt : ℕ) (news : List ℕ) : Prop where
  nodup : news.Nodup
  page : ∀ t ∈ news, t % PAGESIZE = 0
  lt : ∀ t ∈ news, t < 0x100000000
  notUsed : ∀ t ∈ news, t ∉ uses m pt
  notKernel : ∀ t ∈ news, t ∉ K
  console : CONSOLE_ADDR ∉ news

section

variable {K : Set ℕ} {m m' : Mem} {pt p pa pg t addr : ℕ} {f g : ℕ → BitVec 64} {news : List ℕ} {perm w : BitVec 64}

theorem mem_uses_iff (h : Space m pt f) :
    t ∈ uses m pt ↔ t = pt ∨ IsLowTable m pt t ∨ ∃ p ≤ LASTPAGE, Owned f p ∧ t = entryPa (f p) := by
  unfold uses
  rw [Set.mem_setOf_eq, h.userPage_iff]

/-- The root is met nowhere below. -/
theorem Space.root_not_low (h : Space m pt f) : ¬IsLowTable m pt pt := by
  rintro ⟨x, l, -, hl, ht⟩
  have hroot := (h.tree.level_eq (by omega) le_rfl ht (tableAt_three m pt x)).1
  omega

theorem Running.page_uses (h : Running K m pt f) (hp : p ≤ LASTPAGE) (howned : Owned f p) : entryPa (f p) ∈ uses m pt :=
  (mem_uses_iff h.space).2 (.inr (.inr ⟨p, hp, howned, rfl⟩))

theorem Spare.fresh (h : Spare K m pt news) (hrun : Running K m pt f) : Fresh m pt news := by
  refine ⟨h.page, h.nodup, fun q hq x l ht => ?_⟩
  rcases hrun.tables x l q ht with rfl | hlow | hk
  · exact h.notUsed q hq (.inl rfl)
  · exact h.notUsed q hq (.inr (.inl hlow))
  · exact h.notKernel q hq hk

theorem Spare.tail (h : Spare K m pt (pg :: news)) : Spare K m pt news :=
  ⟨(List.nodup_cons.1 h.nodup).2, fun t ht => h.page t (List.mem_cons_of_mem pg ht),
    fun t ht => h.lt t (List.mem_cons_of_mem pg ht), fun t ht => h.notUsed t (List.mem_cons_of_mem pg ht),
    fun t ht => h.notKernel t (List.mem_cons_of_mem pg ht), fun hin => h.console (List.mem_cons_of_mem pg hin)⟩

/-! ## Memory that changes elsewhere -/

/-- Memory in which the tables are as before. -/
theorem Running.congr (h : Running K m pt f) (hm : ∀ t, t = pt ∨ IsLowTable m pt t ∨ t ∈ K → m' t = m t) :
    Running K m' pt f ∧ uses m' pt = uses m pt ∧ ∀ x ≤ VA_LOWMAX, translate m' pt x = translate m pt x := by
  have hsame : ∀ x l t, l ≤ 3 → tableAt m pt x l = some t → m' t = m t := fun x l t _ ht => hm t (h.tables x l t ht)
  have htables := tableAt_frame hsame
  have hlow : ∀ t, IsLowTable m' pt t ↔ IsLowTable m pt t := by
    intro t
    unfold IsLowTable
    simp only [htables]
  have hspace := h.space.congr hsame
  refine ⟨⟨hspace, fun x l t ht => ?_, h.distinct, fun p hp howned => ?_, h.console⟩, ?_, fun x hx => ?_⟩
  · rw [htables] at ht
    rw [hlow]
    exact h.tables x l t ht
  · rw [hlow]
    exact h.notTable p hp howned
  · ext t
    rw [mem_uses_iff hspace, mem_uses_iff h.space, hlow]
  · rw [hspace.translate_eq hx, h.space.translate_eq hx]

/-! ## A page is mapped -/

/-- What a call that maps pages may do to the memory of its process. -/
structure Grows (K : Set ℕ) (m : Mem) (pt : ℕ) (news : List ℕ) (m' : Mem) (news' : List ℕ) : Prop where
  running : ∃ f, Running K m' pt f
  left : news'.Sublist news
  uses : Ptable.uses m' pt ⊆ Ptable.uses m pt ∪ {t | t ∈ news ∧ t ∉ news'}
  frame : ∀ u, u ∉ news → u ≠ pt → ¬IsLowTable m pt u → m' u = m u

theorem Running.grows_refl (h : Running K m pt f) : Grows K m pt news m news :=
  ⟨⟨f, h⟩, .refl news, fun _ ht => .inl ht, fun _ _ _ _ => rfl⟩

/-- The pages of the entries once page `p` has another one. -/
theorem owned_update_cases (hmap : Mapping pa perm) {q : ℕ}
    (howned : Owned (Function.update f p (BitVec.ofNat 64 pa ||| perm)) q) :
    Owned f q ∧ Function.update f p (BitVec.ofNat 64 pa ||| perm) q = f q ∨
      q = p ∧ entryPa (Function.update f p (BitVec.ofNat 64 pa ||| perm) q) = pa ∧ pa ≠ CONSOLE_ADDR := by
  by_cases hq : q = p
  · subst hq
    obtain ⟨-, hne⟩ := howned
    rw [Function.update_self, hmap.entryPa_eq] at hne ⊢
    exact .inr ⟨rfl, rfl, hne⟩
  · refine .inl ⟨?_, Function.update_of_ne hq _ _⟩
    unfold Owned at howned
    rwa [Function.update_of_ne hq] at howned

/-- A process whose page `p` may have a new page `pa`, with the tables for it. -/
theorem Running.maps {k : ℕ} (h : Running K m pt f) (hspare : Spare K m pt news) (hp : p ≤ LASTPAGE)
    (hmaps : Maps m pt (p * PAGESIZE) (news.take k) m') (hspace : Space m' pt g)
    (hnew : pa ≠ CONSOLE_ADDR → pa ∉ news ∧ pa ∉ uses m pt)
    (hcases : ∀ q, Owned g q → Owned f q ∧ g q = f q ∨ q = p ∧ entryPa (g q) = pa ∧ pa ≠ CONSOLE_ADDR)
    (hcons : ∀ q < NPAGES, IsUser (g q) → entryPa (g q) = CONSOLE_ADDR → q = CONSOLE_PAGE) :
    Running K m' pt g ∧ (∀ t ∈ uses m' pt, t ∈ uses m pt ∨ t ∈ news.take k ∨ t = pa ∧ pa ≠ CONSOLE_ADDR) ∧
      ∀ u, u ∉ news → u ≠ pt → ¬IsLowTable m pt u → m' u = m u := by
  have hlow : p * PAGESIZE ≤ VA_LOWMAX := le_trans (Nat.mul_le_mul_right _ hp) (Nat.div_mul_le_self _ _)
  have htable : ∀ t, IsLowTable m' pt t ↔ IsLowTable m pt t ∨ t ∈ news.take k := fun t => hmaps.isLowTable_iff hlow
  refine ⟨⟨hspace, fun x l t ht => ?_, fun q hq r hr hoq hor heq => ?_, fun q hq howned => ?_, hcons⟩, fun t ht => ?_,
    fun u hu hroot hnot => hmaps.frame u (fun hin => hu (List.mem_of_mem_take hin)) fun l ht => ?_⟩
  · rw [htable]
    rcases hmaps.tables x l t ht with hold | hin
    · rcases h.tables x l t hold with hroot | hold | hk
      · exact .inl hroot
      · exact .inr (.inl (.inl hold))
      · exact .inr (.inr hk)
    · exact .inr (.inl (.inr hin))
  · -- the new page is in no other entry
    rcases hcases q hoq with ⟨hofq, hgq⟩ | ⟨rfl, hpa, hne⟩
    · rcases hcases r hor with ⟨hofr, hgr⟩ | ⟨rfl, hpa, hne⟩
      · rw [hgq, hgr] at heq
        exact h.distinct q hq r hr hofq hofr heq
      · rw [hgq, hpa] at heq
        rw [← heq] at hne hnew
        exact absurd (h.page_uses hq hofq) (hnew hne).2
    · rcases hcases r hor with ⟨hofr, hgr⟩ | ⟨rfl, -, -⟩
      · rw [hgr, hpa] at heq
        rw [heq] at hne hnew
        exact absurd (h.page_uses hr hofr) (hnew hne).2
      · rfl
  · rw [htable]
    rcases hcases q howned with ⟨hofq, hgq⟩ | ⟨rfl, hpa, hne⟩
    · rw [hgq]
      obtain ⟨hroot, hnot⟩ := h.notTable q hq hofq
      refine ⟨hroot, ?_⟩
      rintro (hold | hin)
      · exact hnot hold
      · exact hspare.notUsed _ (List.mem_of_mem_take hin) (h.page_uses hq hofq)
    · rw [hpa]
      obtain ⟨hnews, hused⟩ := hnew hne
      refine ⟨fun hroot => hused (.inl hroot), ?_⟩
      rintro (hold | hin)
      · exact hused (.inr (.inl hold))
      · exact hnews (List.mem_of_mem_take hin)
  · rcases (mem_uses_iff hspace).1 ht with hroot | hnow | ⟨q, hq, howned, rfl⟩
    · exact .inl (.inl hroot)
    · rcases (htable t).1 hnow with hold | hin
      · exact .inl (.inr (.inl hold))
      · exact .inr (.inl hin)
    · rcases hcases q howned with ⟨hofq, hgq⟩ | ⟨rfl, hpa, hne⟩
      · rw [hgq]
        exact .inl (h.page_uses hq hofq)
      · exact .inr (.inr ⟨hpa, hne⟩)
  · rcases tableAt_cases ht hlow with heq | hlow'
    · exact hroot heq
    · exact hnot hlow'

/-- `vmiter(this, va).try_map(pa, perm)`, for the console or a page that is not in use. -/
theorem Running.mapAt (h : Running K m pt f) (hspare : Spare K m pt news) (hp : p ≤ LASTPAGE) (hmap : Mapping pa perm)
    (hnew : pa ≠ CONSOLE_ADDR → pa ∉ news ∧ pa ∉ uses m pt)
    (hcons : pa = CONSOLE_ADDR → p < NPAGES → p = CONSOLE_PAGE) :
    ∃ m' k r, mapAt m news pt (p * PAGESIZE) pa perm = some (m', news.drop k, r) ∧ (∃ g, Running K m' pt g) ∧
      (∀ t ∈ uses m' pt, t ∈ uses m pt ∨ t ∈ news.take k ∨ t = pa ∧ pa ≠ CONSOLE_ADDR) ∧
      ∀ u, u ∉ news → u ≠ pt → ¬IsLowTable m pt u → m' u = m u := by
  have hlow : p * PAGESIZE ≤ VA_LOWMAX := le_trans (Nat.mul_le_mul_right _ hp) (Nat.div_mul_le_self _ _)
  obtain ⟨k, m', hcall, hmaps, hspace⟩ := h.space.mapAt hlow (hspare.fresh h) hspare.lt hmap
  by_cases hlen : k ≤ news.length
  · rw [if_pos hlen] at hcall hspace
    obtain ⟨hrun, huses, hframe⟩ := h.maps hspare hp hmaps hspace hnew (fun q => owned_update_cases hmap)
      fun q hq huser hpa => by
        by_cases hqp : q = p
        · subst hqp
          rw [Function.update_self, hmap.entryPa_eq] at hpa
          exact hcons hpa hq
        · rw [Function.update_of_ne hqp] at huser hpa
          exact h.console q hq huser hpa
    exact ⟨m', k, 0, hcall, ⟨_, hrun⟩, huses, hframe⟩
  · rw [if_neg hlen] at hcall hspace
    obtain ⟨hrun, huses, hframe⟩ := h.maps hspare hp hmaps hspace hnew (fun q howned => .inl ⟨howned, rfl⟩) h.console
    exact ⟨m', k, -1, hcall, ⟨_, hrun⟩, huses, hframe⟩

/-- Pages that are taken from the front are not left. -/
theorem notMem_drop {k : ℕ} (hnodup : news.Nodup) (ht : t ∈ news.take k) : t ∉ news.drop k :=
  fun hin => List.disjoint_take_drop hnodup le_rfl ht hin

theorem mapping_pwu (hpage : pa % PAGESIZE = 0) (hlt : pa < 0x100000000) : Mapping pa PTE_PWU :=
  ⟨hpage, hlt, by decide, by decide⟩

/-- **`page_alloc`** returns, and it takes pages for its process alone. -/
theorem Running.page_alloc (h : Running K m pt f) (hspare : Spare K m pt news) (addr : ℕ) :
    ∃ m' news' r, page_alloc m news pt addr = some (m', news', r) ∧ Grows K m pt news m' news' := by
  unfold Ptable.page_alloc
  split
  · exact ⟨m, news, -1, rfl, h.grows_refl⟩
  · rename_i hvalid
    rw [not_or, not_not] at hvalid
    cases news with
    | nil => exact ⟨m, [], -1, rfl, h.grows_refl⟩
    | cons pg news =>
      have hpage : addr / PAGESIZE * PAGESIZE = addr := Nat.div_mul_cancel (Nat.dvd_of_mod_eq_zero hvalid.2)
      have hlast : addr / PAGESIZE ≤ LASTPAGE := by
        refine Nat.div_le_div_right ?_
        have hlt := hvalid.1
        simp only [VA_LOWEND, VA_LOWMAX] at *
        omega
      have hmap := mapping_pwu (hspare.page pg List.mem_cons_self) (hspare.lt pg List.mem_cons_self)
      have hne : pg ≠ CONSOLE_ADDR := by
        rintro rfl
        exact hspare.console List.mem_cons_self
      have hfirst := List.nodup_cons.1 hspare.nodup
      obtain ⟨m', k, r, hcall, hrun, huses, hframe⟩ := h.mapAt hspare.tail hlast hmap
        (fun _ => ⟨hfirst.1, hspare.notUsed pg List.mem_cons_self⟩) fun heq => absurd heq hne
      rw [hpage] at hcall
      simp only
      rw [hcall, Option.map_some]
      refine ⟨m', news.drop k, _, rfl, hrun,
        (List.drop_sublist k news).trans (List.sublist_cons_self pg news), fun t ht => ?_, fun u hu => ?_⟩
      · rcases huses t ht with hold | htake | ⟨rfl, -⟩
        · exact .inl hold
        · exact .inr ⟨List.mem_cons_of_mem pg (List.mem_of_mem_take htake), notMem_drop hfirst.2 htake⟩
        · exact .inr ⟨List.mem_cons_self, fun hin => hfirst.1 (List.mem_of_mem_drop hin)⟩
      · exact hframe u fun hin => hu (List.mem_cons_of_mem pg hin)

/-- **`map_console`** does so too, where it maps the console at its own address or behind `MEMSIZE_VIRTUAL`. -/
theorem Running.map_console (h : Running K m pt f) (hspare : Spare K m pt news)
    (haddr : addr < MEMSIZE_VIRTUAL → addr = CONSOLE_ADDR) :
    ∃ m' news' r, map_console m news pt addr = some (m', news', r) ∧ Grows K m pt news m' news' := by
  unfold Ptable.map_console
  split
  · exact ⟨m, news, E_INVAL, rfl, h.grows_refl⟩
  · rename_i hvalid
    rw [not_or, not_not, not_lt] at hvalid
    have hpage : addr / PAGESIZE * PAGESIZE = addr := Nat.div_mul_cancel (Nat.dvd_of_mod_eq_zero hvalid.2)
    have hlast : addr / PAGESIZE ≤ LASTPAGE := Nat.div_le_div_right hvalid.1
    have hmap : Mapping CONSOLE_ADDR PTE_PWU := mapping_pwu (by decide) (by decide)
    obtain ⟨m', k, r, hcall, hrun, huses, hframe⟩ := h.mapAt hspare hlast hmap (fun hne => absurd rfl hne)
      fun _ hlt => by
        rw [← page_lt_iff, hpage] at hlt
        rw [haddr hlt]
    rw [hpage] at hcall
    refine ⟨m', news.drop k, r, hcall, hrun, List.drop_sublist k news, fun t ht => ?_, hframe⟩
    rcases huses t ht with hold | htake | ⟨-, hne⟩
    · exact .inl hold
    · exact .inr ⟨List.mem_of_mem_take htake, notMem_drop hspare.nodup htake⟩
    · exact absurd rfl hne

/-! ## A store -/

theorem entryPa_mod (e : BitVec 64) : entryPa e % PAGESIZE = 0 := by
  have hand : PTE_PAMASK &&& 0xFFF#64 = 0#64 := by decide
  have hlow : (e &&& PTE_PAMASK &&& 0xFFF#64).toNat = 0 := by
    rw [BitVec.and_assoc, hand, BitVec.and_zero]
    rfl
  rw [BitVec.toNat_and] at hlow
  rwa [show (0xFFF#64).toNat = 2 ^ 12 - 1 from rfl, Nat.and_two_pow_sub_one_eq_mod] at hlow

/-- A store writes to a page that user code may access, or to the console. -/
theorem Running.store_frame (h : Running K m pt f) {va u : ℕ} (hva : va ≤ VA_LOWMAX) (hu : ¬UserPage m pt u)
    (hne : u ≠ CONSOLE_ADDR) : store m pt va w u = m u := by
  unfold store
  rw [h.space.translate_eq hva]
  by_cases hp : f (va / PAGESIZE) &&& PTE_P = PTE_P
  · rw [if_pos hp]
    simp only
    split
    · rename_i hperm
      funext j
      refine Mem.write_of_ne (.inl fun heq => ?_)
      have hpage : (entryPa (f (va / PAGESIZE)) + va % PAGESIZE) / PAGESIZE * PAGESIZE = entryPa (f (va / PAGESIZE)) := by
        have hmod := entryPa_mod (f (va / PAGESIZE))
        have hlt : va % PAGESIZE < PAGESIZE := Nat.mod_lt _ (by decide)
        simp only [PAGESIZE] at *
        omega
      rw [hpage] at heq
      have hentry : u = entryPa (f (va / PAGESIZE)) := heq
      have hand : (PTE_W ||| PTE_U) &&& PTE_U = PTE_U := by decide
      have huser : f (va / PAGESIZE) &&& PTE_PWU &&& PTE_U = PTE_U := by
        rw [← hand, ← BitVec.and_assoc, hperm]
      exact hu (h.space.userPage_iff.2 ⟨va / PAGESIZE, Nat.div_le_div_right hva,
        ⟨isUser_iff.2 ⟨hp, huser⟩, by rwa [← hentry]⟩, hentry⟩)
    · rfl
  · rw [if_neg hp]

/-- The tables are as before. -/
theorem Running.store (h : Running K m pt f) {va : ℕ} (hva : va ≤ VA_LOWMAX)
    (hkernel : ∀ t ∈ uses m pt, t ∉ K ∧ t ≠ CONSOLE_ADDR) (hconsole : CONSOLE_ADDR ∉ K) :
    ∀ t, t = pt ∨ IsLowTable m pt t ∨ t ∈ K → store m pt va w t = m t := by
  intro t ht
  have hpage : UserPage m pt t → t ≠ pt ∧ ¬IsLowTable m pt t ∧ t ∉ K := by
    intro huser
    obtain ⟨p, hp, howned, rfl⟩ := h.space.userPage_iff.1 huser
    exact ⟨(h.notTable p hp howned).1, (h.notTable p hp howned).2, (hkernel _ (h.page_uses hp howned)).1⟩
  refine h.store_frame hva (fun huser => ?_) ?_
  · obtain ⟨hroot, hlow, hk⟩ := hpage huser
    rcases ht with heq | hin | hin
    · exact hroot heq
    · exact hlow hin
    · exact hk hin
  · rcases ht with rfl | hin | hin
    · exact (hkernel t (.inl rfl)).2
    · exact (hkernel t (.inr (.inl hin))).2
    · rintro rfl
      exact hconsole hin

end

end Chickadee.Ptable
