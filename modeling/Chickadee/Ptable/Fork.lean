import Chickadee.Ptable.Release

/-!
# Copying the memory of a process

`fork` gives the child a page of its own for each page of the parent that user code may access, and shares the console
with it. Where `kalloc` has no page left, all that the child has got is given back.
-/

namespace Chickadee.Ptable

open Lib
open Vm (PAGESIZE VA_LOWMAX VA_LOWEND VA_HIGHMIN MEMSIZE_VIRTUAL CONSOLE_ADDR pagesize va_is_canonical)
open Vmiter

abbrev E_NOMEM : ℤ := -12

/-- `memcpy(dst, src, PAGESIZE)`, from a page to a page -/
def Mem.copyPage (m : Mem) (dst src : ℕ) : Mem := fun t i => if t = dst then m src i else m t i

/-- Where the loop of `copy_memory_` ends: the memory, the pages that `kalloc` is left with, those that the loop itself
has passed to `kfree`, and whether it came to its end. -/
structure Copying where
  m : Mem
  news : List ℕ
  freed : List ℕ
  done : Bool

/-- `vmiter itc(child, va)` and `itc.try_map(pa, perm)`, with the pages that `kalloc` gives: the memory, the pages that
are left and the result. Every table that is made takes one. -/
def mapAt (m : Mem) (news : List ℕ) (child va pa : ℕ) (perm : BitVec 64) : Option (Mem × List ℕ × ℤ) :=
  (Vmiter.start m child va).bind fun itc =>
    (itc.try_map m (BitVec.ofNat 64 pa) (perm.truncate 32) news).map fun r =>
      (r.1, news.drop (itc.level_ - r.2.1.level_), r.2.2)

/-- `for (vmiter itp(parent); itp.va() < MEMSIZE_VIRTUAL; )`. The addresses of user code are those of the parent, whose
table is in use. Every turn goes to a page behind. -/
def copyLoop (child : ℕ) : ℕ → Mem → List ℕ → Vmiter → Option Copying
  | 0, _, _, _ => none
  | n + 1, m, news, itp =>
    if itp.va_ < MEMSIZE_VIRTUAL then
      if itp.pa m = CONSOLE_ADDR then
        (mapAt m news child itp.va_ (itp.pa m) (itp.perm m)).bind fun r =>
          if r.2.2 = -1 then some ⟨r.1, r.2.1, [], false⟩
          else (itp.next r.1).bind (copyLoop child n r.1 r.2.1)
      else if itp.user m then
        match news with
        | [] => some ⟨m, [], [], false⟩
        | npg :: news =>
          (mapAt m news child itp.va_ npg (itp.perm m)).bind fun r =>
            if r.2.2 = -1 then some ⟨r.1, r.2.1, [npg], false⟩
            else
              let m' := r.1.copyPage npg (itp.pa r.1)
              (itp.next m').bind (copyLoop child n m' r.2.1)
      else (itp.next_range m).bind (copyLoop child n m news)
    else some ⟨m, news, [], true⟩

/-- What `copy_memory_` leaves: the memory, the pages that `kalloc` is left with, those that have been passed to `kfree`,
and the result. -/
structure Copied where
  m : Mem
  news : List ℕ
  freed : List ℕ
  r : ℤ

/-- `copy_memory_(child)`, for the tables of the parent and the child and the pages that `kalloc` gives -/
def copy_memory_ (n : ℕ) (m : Mem) (parent child : ℕ) (news : List ℕ) : Option Copied :=
  (Vmiter.start m parent 0).bind fun itp => (copyLoop child (NPAGES + 1) m news itp).bind fun c =>
    if c.done then some ⟨c.m, c.news, c.freed, 0⟩
    else (free_auto_allocs n c.m child).map fun s => ⟨s.1, c.news, c.freed ++ s.2, E_NOMEM⟩

/-- The permissions that are copied. -/
def flags (e : BitVec 64) : BitVec 64 := e &&& 0xFFF#64

/-- A page that shows the console. -/
def IsConsole (f : ℕ → BitVec 64) (p : ℕ) : Prop := f p &&& PTE_P = PTE_P ∧ entryPa (f p) = CONSOLE_ADDR

instance (f : ℕ → BitVec 64) (p : ℕ) : Decidable (IsConsole f p) := inferInstanceAs (Decidable (_ ∧ _))

/-- A page that user code may access, and not the console. -/
def Owned (f : ℕ → BitVec 64) (p : ℕ) : Prop := IsUser (f p) ∧ entryPa (f p) ≠ CONSOLE_ADDR

instance (f : ℕ → BitVec 64) (p : ℕ) : Decidable (Owned f p) := inferInstanceAs (Decidable (_ ∧ _))

/-- The pages of user code below page `n`. -/
def owned (f : ℕ → BitVec 64) (n : ℕ) : List ℕ := pagesOf (fun e _ => IsUser e ∧ entryPa e ≠ CONSOLE_ADDR) f n

/-- User code has the console at its address and nowhere else. -/
def ConsoleAt (f : ℕ → BitVec 64) : Prop :=
  ∀ p < NPAGES, IsUser (f p) → (p = CONSOLE_PAGE ↔ entryPa (f p) = CONSOLE_ADDR)

/-- What `fork` may rely on: the child's table is new, and no page that `kalloc` gives is in use. -/
structure Forkable (m : Mem) (parent child : ℕ) (f : ℕ → BitVec 64) (news : List ℕ) : Prop where
  space : Space m parent f
  tree : IsTree m child
  table : ProcTable m child
  blank : ∀ i < 256, m child i = 0#64
  apart : ∀ x l t, l ≤ 3 → tableAt m parent x l = some t → t ≠ child ∧ t ∉ news
  fresh : Fresh m child news
  root : child ∉ news
  lt : ∀ p ∈ news, p < 0x100000000
  pages : ∀ p < NPAGES, Owned f p → entryPa (f p) ≠ child ∧ entryPa (f p) ∉ news
  console : CONSOLE_ADDR ∉ news

/-- What the child has for a page of the parent that has been gone past. -/
def CopiedPage (m : Mem) (f : ℕ → BitVec 64) (m' : Mem) (g : ℕ → BitVec 64) (p : ℕ) : Prop :=
  if IsConsole f p then g p = BitVec.ofNat 64 CONSOLE_ADDR ||| flags (f p)
  else if IsUser (f p) then
    ∃ npg, npg ≠ CONSOLE_ADDR ∧ Mapping npg (flags (f p)) ∧ g p = BitVec.ofNat 64 npg ||| flags (f p) ∧ m' npg = m (entryPa (f p))
  else g p = 0#64

/-- The child and the allocator in the loop: the child's entries are `g`, its tables are `tables` and the pages that it
has been given are `held`. -/
structure ChildInv (m : Mem) (child : ℕ) (news : List ℕ) (m' : Mem) (news' : List ℕ) (g : ℕ → BitVec 64)
    (tables held : List ℕ) : Prop where
  space : Space m' child g
  fresh : Fresh m' child news'
  low : ∀ t, IsLowTable m' child t ↔ t ∈ tables
  old : ∀ x l t, tableAt m' child x l = some t → tableAt m child x l = some t ∨ t ∈ tables
  ledger : (tables ++ held ++ news').Perm news
  frame : ∀ u, u ∉ news → u ≠ child → m' u = m u

section

variable {m m' m'' : Mem} {parent child p pa npg k t n : ℕ} {f g g' : ℕ → BitVec 64} {news news' tables tables' held : List ℕ}
  {itp : Vmiter} {perm e : BitVec 64}

theorem not_owned_of_zero (h : f p = 0#64) : ¬Owned f p := by
  rintro ⟨huser, -⟩
  rw [h] at huser
  exact not_isUser_zero huser

theorem owned_succ (f : ℕ → BitVec 64) (n : ℕ) :
    owned f (n + 1) = owned f n ++ if Owned f n then [entryPa (f n)] else [] := pagesOf_succ f n

theorem owned_skip {q : ℕ} (hpq : p ≤ q) (hzero : ∀ j, p ≤ j → j < q → f j = 0#64) : owned f q = owned f p :=
  pagesOf_skip hpq fun j hj hjq => not_owned_of_zero (hzero j hj hjq)

theorem owned_update (f : ℕ → BitVec 64) (p : ℕ) (e : BitVec 64) : owned (Function.update f p e) p = owned f p :=
  pagesOf_congr fun _ hj => Function.update_of_ne (by omega) _ _

theorem mem_owned : t ∈ owned f n ↔ ∃ p < n, Owned f p ∧ t = entryPa (f p) := mem_pagesOf

/-- The pages that `free_auto_allocs` frees, if the console is mapped at its address only. -/
theorem frames_sublist (h : ∀ p < n, Private f p → Owned f p) : (frames f n).Sublist (owned f n) := pagesOf_sublist h

theorem frames_eq_owned (h : ∀ p < n, Private f p ↔ Owned f p) : frames f n = owned f n :=
  (frames_sublist fun p hp => (h p hp).1).antisymm (pagesOf_sublist fun p hp => (h p hp).2)

theorem tableAt_cases {x l : ℕ} (ht : tableAt m child x l = some t) (hx : x ≤ VA_LOWMAX) :
    t = child ∨ IsLowTable m child t := by
  by_cases hl : l < 3
  · exact .inr ⟨x, l, hx, by omega, ht⟩
  · have hzero : 3 - l = 0 := by omega
    unfold tableAt at ht
    rw [hzero] at ht
    exact .inl (Option.some.inj ht).symm

/-! ## Mapping a page in the child -/

theorem Space.mapAt (h : Space m child g) (hlow : p * PAGESIZE ≤ VA_LOWMAX) (hfresh : Fresh m child news)
    (hlt : ∀ q ∈ news, q < 0x100000000) (hmap : Mapping pa perm) :
    ∃ k m', mapAt m news child (p * PAGESIZE) pa perm = some (m', news.drop k, if k ≤ news.length then 0 else -1) ∧
      Maps m child (p * PAGESIZE) (news.take k) m' ∧
      Space m' child (if k ≤ news.length then Function.update g p (BitVec.ofNat 64 pa ||| perm) else g) := by
  obtain ⟨itc, hstart, hready, -⟩ := h.start hlow
  obtain ⟨m', it', hcall, hlevel, hmaps, hspace⟩ := h.try_map hready hlow (page_mod p) hfresh
    (fun q hq => lt_trans (hlt q hq) (by decide)) hmap
  rw [page_div] at hspace
  refine ⟨itc.level_, m', ?_, hmaps, hspace⟩
  have hdrop : news.drop (itc.level_ - it'.level_) = news.drop itc.level_ := by
    rw [hlevel]
    rcases Nat.le_total itc.level_ news.length with hle | hle
    · rw [Nat.min_eq_left hle]
    · rw [Nat.min_eq_right hle, List.drop_length, List.drop_eq_nil_of_le hle]
  unfold Ptable.mapAt
  rw [hstart, Option.bind_some, hcall, Option.map_some, hdrop]

namespace ChildInv

theorem nodup (h : ChildInv m child news m' news' g tables held) (hnews : news.Nodup) :
    (tables ++ held ++ news').Nodup := h.ledger.nodup_iff.2 hnews

theorem mem_news (h : ChildInv m child news m' news' g tables held) (ht : t ∈ tables ∨ t ∈ held ∨ t ∈ news') :
    t ∈ news := h.ledger.mem_iff.1 (by simpa using ht)

/-- A page that the child has been given is no table of it. -/
theorem ne_table (h : ChildInv m child news m' news' g tables held) (hnews : news.Nodup) (hroot : child ∉ news)
    (ht : t ∈ held) {x l : ℕ} (hx : x ≤ VA_LOWMAX) : tableAt m' child x l ≠ some t := by
  intro htable
  rcases tableAt_cases htable hx with rfl | hlow
  · exact hroot (h.mem_news (.inr (.inl ht)))
  · have hin := (h.low t).1 hlow
    exact (List.nodup_append.1 (List.nodup_append.1 (h.nodup hnews)).1).2.2 t hin t ht rfl

/-- `kalloc` gives a page. -/
theorem take (h : ChildInv m child news m' (npg :: news') g tables held) :
    ChildInv m child news m' news' g tables (held ++ [npg]) := by
  refine ⟨h.space, ⟨fun q hq => h.fresh.page q (List.mem_cons_of_mem _ hq), (List.nodup_cons.1 h.fresh.nodup).2,
    fun q hq => h.fresh.notTable q (List.mem_cons_of_mem _ hq)⟩, h.low, h.old, ?_, h.frame⟩
  simpa using h.ledger

/-- A page is mapped, or the tables for it that `kalloc` has pages for are made. -/
theorem map (h : ChildInv m child news m' news' g tables held) (hnews : news.Nodup) (hroot : child ∉ news)
    (hlow : p * PAGESIZE ≤ VA_LOWMAX) (hmaps : Maps m' child (p * PAGESIZE) (news'.take k) m'')
    (hspace : Space m'' child g') :
    ChildInv m child news m'' (news'.drop k) g' (tables ++ news'.take k) held ∧ ∀ u ∈ held, m'' u = m' u := by
  refine ⟨⟨hspace, hmaps.fresh h.fresh, fun t => ?_, fun x l t ht => ?_, ?_, fun u hu hne => ?_⟩, fun u hu => ?_⟩
  · rw [hmaps.isLowTable_iff hlow, h.low, List.mem_append]
  · rcases hmaps.tables x l t ht with hold | hin
    · exact (h.old x l t hold).imp_right fun hin => List.mem_append_left _ hin
    · exact .inr (List.mem_append_right _ hin)
  · refine List.Perm.trans ?_ h.ledger
    conv_rhs => rw [← List.take_append_drop k news']
    simp only [List.append_assoc]
    refine List.Perm.append_left tables ?_
    rw [← List.append_assoc, ← List.append_assoc]
    exact List.perm_append_comm.append_right _
  · rw [hmaps.frame u (fun hin => hu (h.mem_news (.inr (.inr (List.mem_of_mem_take hin))))) fun l ht => ?_, h.frame u hu hne]
    rcases tableAt_cases ht hlow with rfl | hin
    · exact hne rfl
    · exact hu (h.mem_news (.inl ((h.low u).1 hin)))
  · refine hmaps.frame u (fun hin => ?_) fun l => h.ne_table hnews hroot hu hlow
    refine (List.nodup_append.1 (h.nodup hnews)).2.2 u ?_ u (List.mem_of_mem_take hin) rfl
    exact List.mem_append_right _ hu

/-- A page that the child has been given is filled. -/
theorem fill (h : ChildInv m child news m' news' g tables held) (hnot : ∀ x l, tableAt m' child x l ≠ some npg)
    (hin : npg ∈ news) (src : ℕ) : ChildInv m child news (m'.copyPage npg src) news' g tables held := by
  have hsame : ∀ x l t, l ≤ 3 → tableAt m' child x l = some t → m'.copyPage npg src t = m' t := by
    intro x l t _ ht
    funext i
    refine if_neg ?_
    rintro rfl
    exact hnot x l ht
  have htables : ∀ x l, tableAt (m'.copyPage npg src) child x l = tableAt m' child x l := tableAt_frame hsame
  refine ⟨h.space.congr hsame, ⟨h.fresh.page, h.fresh.nodup, fun q hq x l => ?_⟩, fun t => ?_, fun x l t ht => ?_,
    h.ledger, fun u hu hne => ?_⟩
  · rw [htables]
    exact h.fresh.notTable q hq x l
  · rw [← h.low]
    unfold IsLowTable
    simp only [htables]
  · rw [htables] at ht
    exact h.old x l t ht
  · rw [← h.frame u hu hne]
    funext i
    refine if_neg ?_
    rintro rfl
    exact hu hin

/-- **What a failure gives back** is what the child has got, but for a page at the address of the console, and nothing
else is written. -/
theorem free (h : ChildInv m child news m' news' g tables (owned g NPAGES ++ held)) (hnews : news.Nodup)
    (hproc : ProcTable m child) (hlt : ∀ q ∈ news, q < 0x100000000) (hcons : ∀ p < NPAGES, Private g p → Owned g p) :
    ∃ n m'' freed lost, free_auto_allocs n m' child = some (m'', freed) ∧
      (held ++ freed ++ news' ++ lost).Perm news ∧ (frames g NPAGES = owned g NPAGES → lost = []) ∧
      ∀ u, u ∉ news → u ≠ child → m'' u = m u := by
  have hnodup := (List.nodup_append.1 (h.nodup hnews)).1
  have hsub := frames_sublist hcons
  have hprocess : Process m' child g := by
    refine ⟨h.space, ⟨?_, fun x l t hl ht => ?_⟩, ?_, fun t ht hlow => ?_⟩
    · intro k k' d d' t _ hpos hd hd' ht ht'
      exact h.space.tree trivial hpos hd hd' ht ht'
    · rcases h.old x l t ht with hold | hin
      · exact hproc.inHighmem x l t hl hold
      · exact lt_trans (hlt t (h.mem_news (.inl hin))) (by decide)
    · exact (List.nodup_append.1 (List.nodup_append.1 hnodup).2.1).1.sublist hsub
    · exact (List.nodup_append.1 hnodup).2.2 t ((h.low t).1 hlow) t (List.mem_append_left _ (hsub.subset ht)) rfl
  obtain ⟨n, m'', tables', hfree, hnodup', hmem, hframe⟩ := hprocess.free_auto_allocs
  obtain ⟨lost, hlost⟩ := hsub.exists_perm_append
  refine ⟨n, m'', _, lost, hfree, ?_, fun heq => ?_, fun u hu hne => ?_⟩
  · have htables : tables'.Perm tables := by
      refine (List.perm_ext_iff_of_nodup (List.nodup_append.1 hnodup').2.1 (List.nodup_append.1 hnodup).1).2 fun t => ?_
      rw [hmem, h.low]
    refine List.Perm.trans (List.perm_iff_count.2 fun a => ?_) h.ledger
    have hcount := List.perm_iff_count.1 htables a
    have hcount' := List.perm_iff_count.1 hlost a
    simp only [List.count_append] at hcount' ⊢
    omega
  · have hlength := hlost.length_eq
    rw [heq, List.length_append] at hlength
    exact List.length_eq_zero_iff.1 (by omega)
  · rw [hframe u hne fun hlow => hu (h.mem_news (.inl ((h.low u).1 hlow))), h.frame u hu hne]

end ChildInv

/-! ## The loop -/

/-- The state of the loop before page `p`. -/
structure CopyInv (m : Mem) (child : ℕ) (f : ℕ → BitVec 64) (news : List ℕ) (p : ℕ) (m' : Mem) (news' : List ℕ)
    (g : ℕ → BitVec 64) (tables : List ℕ) : Prop where
  child : ChildInv m child news m' news' g tables (owned g p)
  copied : ∀ j < p, CopiedPage m f m' g j
  ahead : ∀ j, p ≤ j → g j = 0#64

/-- What is copied is for user code if it was so, and it is the console if it was so. -/
def Alike (f g : ℕ → BitVec 64) : Prop :=
  ∀ p, IsUser (g p) → IsUser (f p) ∧ (entryPa (g p) = CONSOLE_ADDR ↔ entryPa (f p) = CONSOLE_ADDR)

/-- The loop has failed, and the pages `freed` have been given back. -/
def Failed (m : Mem) (child : ℕ) (f : ℕ → BitVec 64) (news : List ℕ) (m' : Mem) (freed : List ℕ) : Prop :=
  ∃ g tables, ChildInv m child news m' [] g tables (owned g NPAGES ++ freed) ∧ Alike f g

theorem flags_present (hp : e &&& PTE_P = PTE_P) : flags e &&& PTE_P = PTE_P := by
  have hand : 0xFFF#64 &&& PTE_P = PTE_P := by decide
  unfold flags
  rw [BitVec.and_assoc, hand, hp]

theorem mapping_flags (hp : e &&& PTE_P = PTE_P) (hpage : pa % PAGESIZE = 0) (hlt : pa < 0x100000000) :
    Mapping pa (flags e) := by
  refine ⟨hpage, hlt, ?_, flags_present hp⟩
  unfold flags
  rw [BitVec.and_assoc, BitVec.and_self]

/-- The entry that is made for a page of user code is one for user code. -/
theorem isUser_entry (hmap : Mapping pa (flags e)) : IsUser (BitVec.ofNat 64 pa ||| flags e) ↔ IsUser e := by
  have hand : 0xFFF#64 &&& (PTE_P ||| PTE_U) = PTE_P ||| PTE_U := by decide
  unfold IsUser
  rw [hmap.entry_and _ (by decide)]
  unfold flags
  rw [BitVec.and_assoc, hand]

/-- The parent's address space is as it was. -/
theorem Forkable.space_kept (hf : Forkable m parent child f news) (hframe : ∀ u, u ∉ news → u ≠ child → m' u = m u) :
    Space m' parent f := by
  refine hf.space.congr fun x l t hl ht => ?_
  obtain ⟨hne, hnot⟩ := hf.apart x l t hl ht
  exact hframe t hnot hne

/-- A `vmiter` over the parent stands where it stood. -/
theorem Forkable.ready (hf : Forkable m parent child f news) (hframe : ∀ u, u ∉ news → u ≠ child → m' u = m u)
    (hframe' : ∀ u, u ∉ news → u ≠ child → m'' u = m u) (h : Ready m' parent (p * PAGESIZE) itp) :
    Ready m'' parent (p * PAGESIZE) itp := by
  refine (h.congr fun l u hl hu => ?_).1
  rw [tableAt_frame fun x l t hl ht => hframe t (hf.apart x l t hl ht).2 (hf.apart x l t hl ht).1] at hu
  obtain ⟨hne, hnot⟩ := hf.apart _ l u hl hu
  rw [hframe u hnot hne, hframe' u hnot hne]

/-- The console is recognised. -/
theorem Vmiter.Ready.pa_eq_console (hready : Ready m' parent (p * PAGESIZE) itp) (hread : m'.read itp.pep_ = f p) :
    itp.pa m' = CONSOLE_ADDR ↔ IsConsole f p := by
  unfold IsConsole
  rcases and_pte_p (f p) with habsent | hpresent
  · rw [pa_of_absent (by rw [hread, habsent]), habsent]
    constructor
    · intro h
      exact absurd h (by decide)
    · rintro ⟨h, -⟩
      exact absurd h (by decide)
  · rw [hready.pa_eq (by rw [hread, hpresent]), hread, page_mod, Nat.add_zero]
    exact ⟨fun h => ⟨hpresent, h⟩, fun h => h.2⟩

/-- A page that is neither the console nor for user code. -/
def Skipped (f : ℕ → BitVec 64) (p : ℕ) : Prop := ¬IsConsole f p ∧ ¬IsUser (f p)

theorem skipped_zero (h : f p = 0#64) : Skipped f p := by
  unfold Skipped IsConsole
  rw [h]
  exact ⟨fun hp => absurd hp.1 (by decide), not_isUser_zero⟩

theorem owned_of_isUser (huser : IsUser (f p)) (hconsole : ¬IsConsole f p) : Owned f p :=
  ⟨huser, fun hpa => hconsole ⟨isUser_present huser, hpa⟩⟩

/-- A page of user code that is copied. -/
theorem CopiedPage.owned (h : CopiedPage m f m' g p) (huser : IsUser (f p)) (hconsole : ¬IsConsole f p) :
    ∃ npg, Owned g p ∧ Mapping npg (flags (f p)) ∧ g p = BitVec.ofNat 64 npg ||| flags (f p) ∧ entryPa (g p) = npg ∧
      m' npg = m (entryPa (f p)) := by
  unfold CopiedPage at h
  rw [if_neg hconsole, if_pos huser] at h
  obtain ⟨npg, hne, hmap, hentry, hbytes⟩ := h
  have hpa : entryPa (g p) = npg := by rw [hentry, hmap.entryPa_eq]
  refine ⟨npg, ⟨?_, by rwa [hpa]⟩, hmap, hentry, hpa, hbytes⟩
  rw [hentry, isUser_entry hmap]
  exact huser

/-- A page that is shared. -/
theorem CopiedPage.console (h : CopiedPage m f m' g p) (hconsole : IsConsole f p) :
    Mapping CONSOLE_ADDR (flags (f p)) ∧ g p = BitVec.ofNat 64 CONSOLE_ADDR ||| flags (f p) := by
  unfold CopiedPage at h
  rw [if_pos hconsole] at h
  exact ⟨mapping_flags hconsole.1 (by decide) (by decide), h⟩

theorem CopiedPage.skipped (h : CopiedPage m f m' g p) (hskip : Skipped f p) : g p = 0#64 := by
  unfold CopiedPage at h
  rwa [if_neg hskip.1, if_neg hskip.2] at h

/-- Pages that are skipped. -/
theorem CopyInv.skip {q : ℕ} (h : CopyInv m child f news p m' news' g tables) (hpq : p ≤ q)
    (hskip : ∀ j, p ≤ j → j < q → Skipped f j) : CopyInv m child f news q m' news' g tables := by
  have howned : Ptable.owned g q = Ptable.owned g p := owned_skip hpq fun j hj _ => h.ahead j hj
  refine ⟨by rw [howned]; exact h.child, fun j hj => ?_, fun j hj => h.ahead j (by omega)⟩
  by_cases hjp : j < p
  · exact h.copied j hjp
  · have hskipped := hskip j (by omega) hj
    unfold CopiedPage
    rw [if_neg hskipped.1, if_neg hskipped.2]
    exact h.ahead j (by omega)

theorem CopyInv.alike (h : CopyInv m child f news p m' news' g tables) : Alike f g := by
  intro j huser
  by_cases hj : j < p
  · have hcopied := h.copied j hj
    by_cases hconsole : IsConsole f j
    · obtain ⟨hmap, hentry⟩ := hcopied.console hconsole
      rw [hentry, isUser_entry hmap] at huser
      rw [hentry, hmap.entryPa_eq, hconsole.2]
      exact ⟨huser, Iff.rfl⟩
    · by_cases hu : IsUser (f j)
      · obtain ⟨npg, howned, -⟩ := hcopied.owned hu hconsole
        exact ⟨hu, iff_of_false howned.2 (owned_of_isUser hu hconsole).2⟩
      · rw [hcopied.skipped ⟨hconsole, hu⟩] at huser
        exact absurd huser not_isUser_zero
  · rw [h.ahead j (by omega)] at huser
    exact absurd huser not_isUser_zero

/-- Where the child has no page the loop has not come to. -/
theorem CopyInv.failed (h : CopyInv m child f news p m' news' g tables) (hp : p < NPAGES) {freed : List ℕ}
    (hchild : ChildInv m child news m'' [] g tables' (Ptable.owned g p ++ freed)) :
    Failed m child f news m'' freed := by
  have howned : Ptable.owned g NPAGES = Ptable.owned g p := owned_skip hp.le fun j hj _ => h.ahead j hj
  exact ⟨g, tables', by rw [howned]; exact hchild, h.alike⟩

/-- The pages before are not touched by what is done for a page. -/
theorem CopyInv.kept (h : CopyInv m child f news p m' news' g tables) {j : ℕ} (hj : j < p)
    (hheld : ∀ u ∈ Ptable.owned g p, m'' u = m' u) (e : BitVec 64) : CopiedPage m f m'' (Function.update g p e) j := by
  have hcopied := h.copied j hj
  by_cases hconsole : IsConsole f j
  · unfold CopiedPage
    rw [Function.update_of_ne (by omega), if_pos hconsole]
    exact (hcopied.console hconsole).2
  · by_cases huser : IsUser (f j)
    · obtain ⟨npg, howned, hmap, hentry, hpa, hbytes⟩ := hcopied.owned huser hconsole
      unfold CopiedPage
      rw [Function.update_of_ne (by omega), if_neg hconsole, if_pos huser]
      refine ⟨npg, by rw [← hpa]; exact howned.2, hmap, hentry, ?_⟩
      rw [hheld npg (mem_owned.2 ⟨j, hj, howned, hpa.symm⟩), hbytes]
    · unfold CopiedPage
      rw [Function.update_of_ne (by omega), if_neg hconsole, if_neg huser]
      exact hcopied.skipped ⟨hconsole, huser⟩

/-! ## One turn -/

/-- The loop stands before page `p`. -/
def CopyAt (m : Mem) (parent child : ℕ) (f : ℕ → BitVec 64) (news : List ℕ) (p : ℕ) (m' : Mem) (news' : List ℕ)
    (itp : Vmiter) : Prop :=
  Ready m' parent (p * PAGESIZE) itp ∧ p * PAGESIZE ≤ VA_LOWMAX ∧
    ∃ g tables, CopyInv m child f news p m' news' g tables

/-- A page is done with, and the `vmiter` over the parent moves on. -/
theorem Forkable.move (hf : Forkable m parent child f news) (hp : p < NPAGES)
    (h : CopyInv m child f news (p + 1) m' news' g tables) (hready : Ready m' parent (p * PAGESIZE) itp) :
    ∃ q itp', itp.next_range m' = some itp' ∧ p < q ∧ CopyAt m parent child f news q m' news' itp' ∧
      ∀ j, p < j → j < q → f j = 0#64 := by
  obtain ⟨q, itp', hmove, hpq, -, hlow, hready', hzero⟩ :=
    (hf.space_kept h.child.frame).next_range hp hready
  have hskip : ∀ j, p + 1 ≤ j → j < q → Skipped f j := fun j hj hjq => skipped_zero (hzero j hj hjq)
  exact ⟨q, itp', hmove, hpq, ⟨hready', hlow, g, tables, h.skip hpq hskip⟩, hzero⟩

/-- The console is mapped in the child. -/
theorem CopyInv.console (h : CopyInv m child f news p m' news' g tables) (hf : Forkable m parent child f news)
    (hp : p < NPAGES) (hconsole : IsConsole f p) :
    (∃ m'', mapAt m' news' child (p * PAGESIZE) CONSOLE_ADDR (flags (f p)) = some (m'', [], -1) ∧
      Failed m child f news m'' []) ∨
    ∃ m'' news'' g' tables', mapAt m' news' child (p * PAGESIZE) CONSOLE_ADDR (flags (f p)) = some (m'', news'', 0) ∧
      CopyInv m child f news (p + 1) m'' news'' g' tables' := by
  have hlow : p * PAGESIZE ≤ VA_LOWMAX := le_trans (page_lt_iff.2 hp).le (by decide)
  have hmap : Mapping CONSOLE_ADDR (flags (f p)) := mapping_flags hconsole.1 (by decide) (by decide)
  obtain ⟨k, m'', hcall, hmaps, hspace⟩ := h.child.space.mapAt hlow h.child.fresh
    (fun q hq => hf.lt q (h.child.mem_news (.inr (.inr hq)))) hmap
  obtain ⟨hchild, hheld⟩ := h.child.map hf.fresh.nodup hf.root hlow hmaps hspace
  by_cases hlen : k ≤ news'.length
  · rw [if_pos hlen] at hcall hchild
    have hnot : ¬Owned (Function.update g p (BitVec.ofNat 64 CONSOLE_ADDR ||| flags (f p))) p := by
      rintro ⟨-, hne⟩
      rw [Function.update_self, hmap.entryPa_eq] at hne
      exact hne rfl
    have howned : Ptable.owned (Function.update g p (BitVec.ofNat 64 CONSOLE_ADDR ||| flags (f p))) (p + 1)
        = Ptable.owned g p := by
      rw [owned_succ, if_neg hnot, List.append_nil, owned_update]
    refine .inr ⟨m'', _, _, _, hcall, ⟨by rw [howned]; exact hchild, fun j hj => ?_, fun j hj => ?_⟩⟩
    · rcases Nat.lt_succ_iff_lt_or_eq.1 hj with hlt | rfl
      · exact h.kept hlt hheld _
      · unfold CopiedPage
        rw [if_pos hconsole, Function.update_self]
    · rw [Function.update_of_ne (by omega)]
      exact h.ahead j (by omega)
  · have hnone : news'.drop k = [] := List.drop_eq_nil_of_le (by omega)
    rw [if_neg hlen] at hcall hchild
    rw [hnone] at hcall hchild
    exact .inl ⟨m'', hcall, h.failed hp (by rwa [List.append_nil])⟩

/-- A page of user code gets a page in the child. -/
theorem CopyInv.user (h : CopyInv m child f news p m' (npg :: news') g tables) (hf : Forkable m parent child f news)
    (hp : p < NPAGES) (huser : IsUser (f p)) (hconsole : ¬IsConsole f p) :
    (∃ m'', mapAt m' news' child (p * PAGESIZE) npg (flags (f p)) = some (m'', [], -1) ∧
      Failed m child f news m'' [npg]) ∨
    ∃ m'' news'' g' tables', mapAt m' news' child (p * PAGESIZE) npg (flags (f p)) = some (m'', news'', 0) ∧
      (∀ u, u ∉ news → u ≠ child → m'' u = m u) ∧
      CopyInv m child f news (p + 1) (m''.copyPage npg (entryPa (f p))) news'' g' tables' := by
  have hlow : p * PAGESIZE ≤ VA_LOWMAX := le_trans (page_lt_iff.2 hp).le (by decide)
  have hin : npg ∈ news := h.child.mem_news (.inr (.inr List.mem_cons_self))
  have hmap := mapping_flags (isUser_present huser) (h.child.fresh.page npg List.mem_cons_self) (hf.lt npg hin)
  have hne : npg ≠ CONSOLE_ADDR := by
    rintro rfl
    exact hf.console hin
  have htake := h.child.take
  obtain ⟨k, m'', hcall, hmaps, hspace⟩ := htake.space.mapAt hlow htake.fresh
    (fun q hq => hf.lt q (htake.mem_news (.inr (.inr hq)))) hmap
  obtain ⟨hchild, hheld⟩ := htake.map hf.fresh.nodup hf.root hlow hmaps hspace
  by_cases hlen : k ≤ news'.length
  · rw [if_pos hlen] at hcall hchild
    have howned : Owned (Function.update g p (BitVec.ofNat 64 npg ||| flags (f p))) p := by
      refine ⟨?_, ?_⟩
      · rw [Function.update_self, isUser_entry hmap]
        exact huser
      · rw [Function.update_self, hmap.entryPa_eq]
        exact hne
    have hpages : Ptable.owned (Function.update g p (BitVec.ofNat 64 npg ||| flags (f p))) (p + 1)
        = Ptable.owned g p ++ [npg] := by
      rw [owned_succ, if_pos howned, owned_update, Function.update_self, hmap.entryPa_eq]
    have hnot : ∀ u ∈ Ptable.owned g p, u ≠ npg := by
      intro u hu
      have hnodup := (List.nodup_append.1 (List.nodup_append.1 (htake.nodup hf.fresh.nodup)).1).2.1
      exact (List.nodup_append.1 hnodup).2.2 u hu npg (List.mem_singleton_self npg)
    have htable : ∀ x l, tableAt m'' child x l ≠ some npg := by
      intro x l ht
      rcases hmaps.tables x l npg ht with hold | hused
      · exact h.child.fresh.notTable npg List.mem_cons_self x l hold
      · exact (List.nodup_cons.1 h.child.fresh.nodup).1 (List.mem_of_mem_take hused)
    have hfill := hchild.fill htable hin (entryPa (f p))
    refine .inr ⟨m'', _, _, _, hcall, hchild.frame, ⟨by rw [hpages]; exact hfill, fun j hj => ?_, fun j hj => ?_⟩⟩
    · rcases Nat.lt_succ_iff_lt_or_eq.1 hj with hlt | rfl
      · refine h.kept hlt (fun u hu => ?_) _
        rw [← hheld u (List.mem_append_left _ hu)]
        funext i
        exact if_neg (hnot u hu)
      · unfold CopiedPage
        rw [if_neg hconsole, if_pos huser, Function.update_self]
        refine ⟨npg, hne, hmap, rfl, ?_⟩
        obtain ⟨hroot, hold⟩ := hf.pages j hp (owned_of_isUser huser hconsole)
        rw [← hchild.frame _ hold hroot]
        funext i
        exact if_pos rfl
    · rw [Function.update_of_ne (by omega)]
      exact h.ahead j (by omega)
  · have hnone : news'.drop k = [] := List.drop_eq_nil_of_le (by omega)
    rw [if_neg hlen] at hcall hchild
    rw [hnone] at hcall hchild
    exact .inl ⟨m'', hcall, h.failed hp hchild⟩

theorem copyLoop_succ (n child : ℕ) (m : Mem) (news : List ℕ) (itp : Vmiter) : copyLoop child (n + 1) m news itp
    = if itp.va_ < MEMSIZE_VIRTUAL then
        if itp.pa m = CONSOLE_ADDR then
          (mapAt m news child itp.va_ (itp.pa m) (itp.perm m)).bind fun r =>
            if r.2.2 = -1 then some ⟨r.1, r.2.1, [], false⟩
            else (itp.next r.1).bind (copyLoop child n r.1 r.2.1)
        else if itp.user m then
          match news with
          | [] => some ⟨m, [], [], false⟩
          | npg :: news =>
            (mapAt m news child itp.va_ npg (itp.perm m)).bind fun r =>
              if r.2.2 = -1 then some ⟨r.1, r.2.1, [npg], false⟩
              else
                let m' := r.1.copyPage npg (itp.pa r.1)
                (itp.next m').bind (copyLoop child n m' r.2.1)
        else (itp.next_range m).bind (copyLoop child n m news)
      else some ⟨m, news, [], true⟩ := rfl

/-- One turn fails or goes to a page behind. -/
theorem Forkable.turn (hf : Forkable m parent child f news) (h : CopyAt m parent child f news p m' news' itp)
    (hp : p < NPAGES) :
    (∃ m'' freed, copyLoop child (n + 1) m' news' itp = some ⟨m'', [], freed, false⟩ ∧ Failed m child f news m'' freed) ∨
    ∃ q m₁ news₁ itp₁, copyLoop child (n + 1) m' news' itp = copyLoop child n m₁ news₁ itp₁ ∧ p < q ∧
      CopyAt m parent child f news q m₁ news₁ itp₁ ∧ ∀ j, p < j → j < q → f j = 0#64 := by
  obtain ⟨hready, hlow, g, tables, hinv⟩ := h
  have hread := (hf.space_kept hinv.child.frame).read_eq hlow hready
  rw [page_div] at hread
  have hconsole := hready.pa_eq_console hread
  have hready_of : ∀ m'', (∀ u, u ∉ news → u ≠ child → m'' u = m u) → Ready m'' parent (p * PAGESIZE) itp :=
    fun m'' hframe => hf.ready hinv.child.frame hframe hready
  rw [copyLoop_succ, seek_va hready.seek, if_pos (page_lt_iff.2 hp)]
  by_cases hc : IsConsole f p
  · have hperm : itp.perm m' = flags (f p) := by rw [hready.perm_eq (by rw [hread, hc.1]), hread]; rfl
    rw [if_pos (hconsole.2 hc), hconsole.2 hc, hperm]
    rcases hinv.console hf hp hc with ⟨m'', hcall, hfailed⟩ | ⟨m'', news'', g', tables', hcall, hinv'⟩
    · exact .inl ⟨m'', [], by rw [hcall]; rfl, hfailed⟩
    · have hready' := hready_of m'' hinv'.child.frame
      obtain ⟨q, itp', hmove, hpq, hat, hzero⟩ := hf.move hp hinv' hready'
      refine .inr ⟨q, m'', news'', itp', ?_, hpq, hat, hzero⟩
      rw [hcall, Option.bind_some, if_neg (show ¬(0 : ℤ) = -1 by decide), hready'.next_eq, hmove, Option.bind_some]
  · rw [if_neg fun hpa => hc (hconsole.1 hpa)]
    by_cases huser : IsUser (f p)
    · have hpresent := isUser_present huser
      have hperm : itp.perm m' = flags (f p) := by rw [hready.perm_eq (by rw [hread, hpresent]), hread]; rfl
      rw [if_pos (hready.user_iff.2 (by rwa [hread]))]
      cases news' with
      | nil => exact .inl ⟨m', [], rfl, hinv.failed hp (by rw [List.append_nil]; exact hinv.child)⟩
      | cons npg news' =>
        simp only
        rw [hperm]
        rcases hinv.user hf hp huser hc with
          ⟨m'', hcall, hfailed⟩ | ⟨m'', news'', g', tables', hcall, hframe, hinv'⟩
        · exact .inl ⟨m'', [npg], by rw [hcall]; rfl, hfailed⟩
        · have hready₁ := hready_of m'' hframe
          have hread₁ := (hf.space_kept hframe).read_eq hlow hready₁
          rw [page_div] at hread₁
          have hpa : itp.pa m'' = entryPa (f p) := by
            rw [hready₁.pa_eq (by rw [hread₁, hpresent]), hread₁, page_mod, Nat.add_zero]
          have hready' := hready_of _ hinv'.child.frame
          obtain ⟨q, itp', hmove, hpq, hat, hzero⟩ := hf.move hp hinv' hready'
          refine .inr ⟨q, _, news'', itp', ?_, hpq, hat, hzero⟩
          rw [hcall, Option.bind_some, if_neg (show ¬(0 : ℤ) = -1 by decide)]
          simp only
          rw [hpa, hready'.next_eq, hmove, Option.bind_some]
    · rw [if_neg (by rwa [hready.user_iff, hread])]
      have hinv' : CopyInv m child f news (p + 1) m' news' g tables := by
        refine hinv.skip (by omega) fun j hj hjp => ?_
        obtain rfl : j = p := by omega
        exact ⟨hc, huser⟩
      obtain ⟨q, itp', hmove, hpq, hat, hzero⟩ := hf.move hp hinv' hready
      refine .inr ⟨q, m', news', itp', ?_, hpq, hat, hzero⟩
      rw [hmove, Option.bind_some]

/-- The loop fails or comes to the end. -/
theorem Forkable.run (hf : Forkable m parent child f news) (hn : NPAGES ≤ p + n)
    (h : CopyAt m parent child f news p m' news' itp) (hpast : ∀ j, NPAGES ≤ j → j < p → f j = 0#64) :
    (∃ m'' freed, copyLoop child (n + 1) m' news' itp = some ⟨m'', [], freed, false⟩ ∧ Failed m child f news m'' freed) ∨
    ∃ q m'' news'' g tables, copyLoop child (n + 1) m' news' itp = some ⟨m'', news'', [], true⟩ ∧ NPAGES ≤ q ∧
      CopyInv m child f news q m'' news'' g tables ∧ ∀ j, NPAGES ≤ j → j < q → f j = 0#64 := by
  by_cases hp : p < NPAGES
  · induction n generalizing p m' news' itp with
    | zero => omega
    | succ n ih =>
      rcases hf.turn (n := n + 1) h hp with hfailed | ⟨q, m₁, news₁, itp₁, hturn, hpq, hat, hzero⟩
      · exact .inl hfailed
      · have hpast' : ∀ j, NPAGES ≤ j → j < q → f j = 0#64 := fun j hj hjq => hzero j (by omega) hjq
        rw [hturn]
        by_cases hq : q < NPAGES
        · exact ih (by omega) hat hpast' hq
        · obtain ⟨hready, -, g, tables, hinv⟩ := hat
          rw [copyLoop_succ, seek_va hready.seek, if_neg (by rw [page_lt_iff]; omega)]
          exact .inr ⟨q, m₁, news₁, g, tables, rfl, by omega, hinv, hpast'⟩
  · obtain ⟨hready, -, g, tables, hinv⟩ := h
    rw [copyLoop_succ, seek_va hready.seek, if_neg (by rw [page_lt_iff]; omega)]
    exact .inr ⟨p, m', news', g, tables, rfl, by omega, hinv, hpast⟩

/-! ## The child -/

/-- The pages that user code may access, but for the console. -/
def UserPage (m : Mem) (pt t : ℕ) : Prop := ∃ x ≤ VA_LOWMAX, ∃ perm,
  translate m pt x = some (t + x % PAGESIZE, perm) ∧ perm &&& PTE_U = PTE_U ∧ t ≠ CONSOLE_ADDR

/-- What the child's user code finds: pages of its own with the parent's bytes and permissions, the console, and
nothing else. -/
structure Child (m m' : Mem) (parent child : ℕ) (news : List ℕ) : Prop where
  own : ∀ x < MEMSIZE_VIRTUAL, ∀ t perm, translate m parent x = some (t + x % PAGESIZE, perm) →
    perm &&& PTE_U = PTE_U → t ≠ CONSOLE_ADDR →
    ∃ npg ∈ news, translate m' child x = some (npg + x % PAGESIZE, perm) ∧ m' npg = m t
  console : ∀ x < MEMSIZE_VIRTUAL, ∀ perm, translate m parent x = some (CONSOLE_ADDR + x % PAGESIZE, perm) →
    translate m' child x = some (CONSOLE_ADDR + x % PAGESIZE, perm)
  none : ∀ x ≤ VA_LOWMAX, (x < MEMSIZE_VIRTUAL → ∀ t perm, translate m parent x = some (t + x % PAGESIZE, perm) →
    perm &&& PTE_U ≠ PTE_U ∧ t ≠ CONSOLE_ADDR) → translate m' child x = none

theorem Space.translate_iff {x : ℕ} (h : Space m child g) (hx : x ≤ VA_LOWMAX) :
    translate m child x = some (t + x % PAGESIZE, perm) ↔
      g (x / PAGESIZE) &&& PTE_P = PTE_P ∧ t = entryPa (g (x / PAGESIZE)) ∧ perm = g (x / PAGESIZE) &&& PTE_PWU := by
  rw [h.translate_eq hx]
  by_cases hp : g (x / PAGESIZE) &&& PTE_P = PTE_P
  · rw [if_pos hp, Option.some.injEq, Prod.mk.injEq]
    constructor
    · rintro ⟨hpa, rfl⟩
      exact ⟨hp, by omega, rfl⟩
    · rintro ⟨-, rfl, rfl⟩
      exact ⟨rfl, rfl⟩
  · rw [if_neg hp]
    exact iff_of_false (by simp) fun h => hp h.1

theorem Space.userPage_iff (h : Space m child g) :
    UserPage m child t ↔ ∃ p ≤ VA_LOWMAX / PAGESIZE, Owned g p ∧ t = entryPa (g p) := by
  constructor
  · rintro ⟨x, hx, perm, htr, huser, hne⟩
    obtain ⟨hpresent, rfl, rfl⟩ := (h.translate_iff hx).1 htr
    exact ⟨x / PAGESIZE, Nat.div_le_div_right hx, ⟨isUser_iff.2 ⟨hpresent, huser⟩, hne⟩, rfl⟩
  · rintro ⟨p, hp, ⟨huser, hne⟩, rfl⟩
    obtain ⟨hpresent, hu⟩ := isUser_iff.1 huser
    have hlow : p * PAGESIZE ≤ VA_LOWMAX := le_trans (Nat.mul_le_mul_right _ hp) (Nat.div_mul_le_self _ _)
    refine ⟨p * PAGESIZE, hlow, g p &&& PTE_PWU, (h.translate_iff hlow).2 ?_, hu, hne⟩
    rw [page_div]
    exact ⟨hpresent, rfl, rfl⟩

theorem div_lt_iff {x : ℕ} : x / PAGESIZE < NPAGES ↔ x < MEMSIZE_VIRTUAL := by
  simp only [NPAGES, MEMSIZE_VIRTUAL, PAGESIZE]
  omega

/-- The translation of a page that has been mapped. -/
theorem translate_mapped {x : ℕ} (h : Space m child g) (hx : x ≤ VA_LOWMAX) (hmap : Mapping pa (flags e))
    (hentry : g (x / PAGESIZE) = BitVec.ofNat 64 pa ||| flags e) :
    translate m child x = some (pa + x % PAGESIZE, e &&& PTE_PWU) := by
  have hand : 0xFFF#64 &&& PTE_PWU = PTE_PWU := by decide
  have hpresent : (BitVec.ofNat 64 pa ||| flags e) &&& PTE_P = PTE_P := by
    rw [hmap.entry_and _ (by decide), hmap.present]
  have hperm : (BitVec.ofNat 64 pa ||| flags e) &&& PTE_PWU = e &&& PTE_PWU := by
    rw [hmap.entry_and _ (by decide)]
    unfold flags
    rw [BitVec.and_assoc, hand]
  rw [h.translate_eq hx, hentry, if_pos hpresent, hmap.entryPa_eq, hperm]

theorem translate_zero {x : ℕ} (h : Space m child g) (hx : x ≤ VA_LOWMAX) (hzero : g (x / PAGESIZE) = 0#64) :
    translate m child x = none := by
  rw [h.translate_eq hx, hzero, if_neg (by decide)]

/-- Beyond the pages that are copied the child has nothing. -/
theorem CopyInv.beyond (h : CopyInv m child f news p m' news' g tables)
    (hpast : ∀ j, NPAGES ≤ j → j < p → f j = 0#64) {j : ℕ} (hj : NPAGES ≤ j) : g j = 0#64 := by
  by_cases hjp : j < p
  · have hcopied := h.copied j hjp
    exact hcopied.skipped (skipped_zero (hpast j hj hjp))
  · exact h.ahead j (by omega)

/-- The child at the end of the loop. -/
theorem CopyInv.isChild (hf : Forkable m parent child f news) (h : CopyInv m child f news p m' news' g tables)
    (hp : NPAGES ≤ p) (hpast : ∀ j, NPAGES ≤ j → j < p → f j = 0#64) : Child m m' parent child news := by
  have hcopied : ∀ x < MEMSIZE_VIRTUAL, CopiedPage m f m' g (x / PAGESIZE) :=
    fun x hx => h.copied _ (lt_of_lt_of_le (div_lt_iff.2 hx) hp)
  have hlow : ∀ x < MEMSIZE_VIRTUAL, x ≤ VA_LOWMAX := fun x hx => le_trans hx.le (by decide)
  refine ⟨fun x hx t perm htr huser hne => ?_, fun x hx perm htr => ?_, fun x hx hnone => ?_⟩
  · obtain ⟨hpresent, rfl, rfl⟩ := (hf.space.translate_iff (hlow x hx)).1 htr
    have hconsole : ¬IsConsole f (x / PAGESIZE) := fun hc => hne hc.2
    obtain ⟨npg, howned, hmap, hentry, hpa, hbytes⟩ :=
      (hcopied x hx).owned (isUser_iff.2 ⟨hpresent, huser⟩) hconsole
    refine ⟨npg, ?_, translate_mapped h.child.space (hlow x hx) hmap hentry, hbytes⟩
    exact h.child.mem_news (.inr (.inl (mem_owned.2 ⟨_, lt_of_lt_of_le (div_lt_iff.2 hx) hp, howned, hpa.symm⟩)))
  · obtain ⟨hpresent, hpa, rfl⟩ := (hf.space.translate_iff (hlow x hx)).1 htr
    obtain ⟨hmap, hentry⟩ := (hcopied x hx).console ⟨hpresent, hpa.symm⟩
    exact translate_mapped h.child.space (hlow x hx) hmap hentry
  · refine translate_zero h.child.space hx ?_
    by_cases hlt : x < MEMSIZE_VIRTUAL
    · refine (hcopied x hlt).skipped ⟨fun hc => ?_, fun huser => ?_⟩
      · exact (hnone hlt _ _ ((hf.space.translate_iff hx).2 ⟨hc.1, rfl, rfl⟩)).2 hc.2
      · obtain ⟨hpresent, hu⟩ := isUser_iff.1 huser
        exact (hnone hlt _ _ ((hf.space.translate_iff hx).2 ⟨hpresent, rfl, rfl⟩)).1 hu
    · exact h.beyond hpast (by rw [← not_lt, div_lt_iff]; exact hlt)

/-! ## All of it -/

/-- There are no tables below an entry that is zero. -/
theorem tableAt_of_zero {x l : ℕ} (hzero : m child (pageindex x 3) = 0#64) (hl : l < 3) :
    tableAt m child x l = none := by
  have hall : ∀ d ≤ 2, tableAt m child x (2 - d) = none := by
    intro d hd
    induction d with
    | zero => rw [tableAt_of_succ (by omega) (tableAt_three m child x), hzero, subtable_zero]
    | succ d ih =>
      by_contra hsome
      obtain ⟨t, ht⟩ := Option.ne_none_iff_exists'.1 hsome
      obtain ⟨u, hu, -⟩ := exists_tableAt_succ (by omega) ht
      rw [show 2 - (d + 1) + 1 = 2 - d by omega, ih (by omega)] at hu
      cases hu
  have hlast := hall (2 - l) (by omega)
  rwa [show 2 - (2 - l) = l by omega] at hlast

/-- A new table has no table of the low half below it. -/
theorem not_isLowTable_of_blank (hblank : ∀ i < 256, m child i = 0#64) (t : ℕ) : ¬IsLowTable m child t := by
  rintro ⟨x, l, hx, hl, ht⟩
  have hindex : pageindex x 3 < 256 := by
    unfold pageindex
    rw [pagesize_three]
    simp only [VA_LOWMAX] at hx
    omega
  rw [tableAt_of_zero (hblank _ hindex) (by omega)] at ht
  cases ht

/-- The loop starts with an empty child. -/
theorem Forkable.start (hf : Forkable m parent child f news) :
    ∃ itp, Vmiter.start m parent 0 = some itp ∧ CopyAt m parent child f news 0 m news itp := by
  obtain ⟨itp, hstart, hready, -⟩ := hf.space.start (Nat.zero_le _)
  refine ⟨itp, hstart, by rwa [Nat.zero_mul], by decide, fun _ => 0#64, [], ⟨?_, fun j hj => by omega, fun _ _ => rfl⟩⟩
  refine ⟨space_blank hf.tree hf.blank, hf.fresh, fun t => ?_, fun x l t ht => .inl ht, .refl _, fun _ _ _ => rfl⟩
  simp [not_isLowTable_of_blank hf.blank t]

/-- What the loop has come to when it ends. -/
theorem Forkable.loop (hf : Forkable m parent child f news) : ∃ itp, Vmiter.start m parent 0 = some itp ∧
    ((∃ m' freed, copyLoop child (NPAGES + 1) m news itp = some ⟨m', [], freed, false⟩ ∧
      Failed m child f news m' freed) ∨
    ∃ m' news' g tables, copyLoop child (NPAGES + 1) m news itp = some ⟨m', news', [], true⟩ ∧
      Child m m' parent child news ∧ ChildInv m child news m' news' g tables (owned g NPAGES) ∧ Alike f g ∧
        ∀ j, NPAGES ≤ j → g j = 0#64) := by
  obtain ⟨itp, hstart, hat⟩ := hf.start
  refine ⟨itp, hstart, ?_⟩
  rcases hf.run (le_of_eq (Nat.zero_add NPAGES).symm) hat (by omega) with
    hfailed | ⟨q, m', news', g, tables, hloop, hq, hinv, hpast⟩
  · exact .inl hfailed
  · have howned : owned g q = owned g NPAGES := owned_skip hq fun j hj _ => hinv.beyond hpast hj
    refine .inr ⟨m', news', g, tables, hloop, hinv.isChild hf hq hpast, ?_, hinv.alike, fun j => hinv.beyond hpast⟩
    rw [← howned]
    exact hinv.child

/-- User code has the console nowhere but at its address. -/
theorem Alike.owned_of_private (h : Alike f g)
    (hcons : ∀ p < NPAGES, IsUser (f p) → entryPa (f p) = CONSOLE_ADDR → p = CONSOLE_PAGE) :
    ∀ p < NPAGES, Private g p → Owned g p := by
  rintro p hp ⟨huser, hne⟩
  obtain ⟨huser', hpa⟩ := h p huser
  exact ⟨huser, fun hg => hne (hcons p hp huser' (hpa.1 hg))⟩

theorem Alike.frames_eq (h : Alike f g) (hcons : ConsoleAt f) : frames g NPAGES = owned g NPAGES := by
  refine frames_eq_owned fun p hp => and_congr_right fun huser => not_congr ?_
  obtain ⟨huser', hpa⟩ := h p huser
  rw [hpa]
  exact hcons p hp huser'

/-- With more steps for a failure it does the same. -/
theorem copy_memory_unique {n' : ℕ} {c c' : Copied} (h : copy_memory_ n m parent child news = some c)
    (h' : copy_memory_ n' m parent child news = some c') : c = c' := by
  unfold copy_memory_ at h h'
  obtain ⟨itp, hstart, hrest⟩ := Option.bind_eq_some_iff.1 h
  obtain ⟨e, hloop, hend⟩ := Option.bind_eq_some_iff.1 hrest
  rw [hstart, Option.bind_some, hloop, Option.bind_some] at h'
  by_cases hdone : e.done = true
  · rw [if_pos hdone] at hend h'
    exact Option.some.inj (hend.symm.trans h')
  · rw [if_neg hdone, Option.map_eq_some_iff] at hend h'
    obtain ⟨r, hfree, rfl⟩ := hend
    obtain ⟨r', hfree', rfl⟩ := h'
    rw [free_auto_allocs_unique hfree hfree']

/-- What `copy_memory_` leaves. A page at the address of the console may be lost where it fails. -/
theorem Forkable.copied (hf : Forkable m parent child f news)
    (hcons : ∀ p < NPAGES, IsUser (f p) → entryPa (f p) = CONSOLE_ADDR → p = CONSOLE_PAGE) :
    ∃ n c, copy_memory_ n m parent child news = some c ∧ (∀ u, u ∉ news → u ≠ child → c.m u = m u) ∧
    ((c.r = 0 ∧ c.freed = [] ∧ Child m c.m parent child news ∧ ∃ g tables, Alike f g ∧
      (∀ j, NPAGES ≤ j → g j = 0#64) ∧ ChildInv m child news c.m c.news g tables (owned g NPAGES)) ∨
    (c.r = E_NOMEM ∧ c.news = [] ∧ ∃ lost, (c.freed ++ lost).Perm news ∧ (ConsoleAt f → lost = []))) := by
  obtain ⟨itp, hstart, ⟨m', freed, hloop, g, tables, hinv, halike⟩ |
    ⟨m', news', g, tables, hloop, hchild, hinv, halike, hend⟩⟩ := hf.loop
  · obtain ⟨n, m'', freed', lost, hfree, hledger, hlost, hframe⟩ :=
      hinv.free hf.fresh.nodup hf.table hf.lt (halike.owned_of_private hcons)
    refine ⟨n, ⟨m'', [], freed ++ freed', E_NOMEM⟩, ?_, hframe, .inr ⟨rfl, rfl, lost, ?_, fun hat => ?_⟩⟩
    · unfold copy_memory_
      rw [hstart, Option.bind_some, hloop, Option.bind_some, if_neg (by simp), hfree, Option.map_some]
    · simpa using hledger
    · exact hlost (halike.frames_eq hat)
  · refine ⟨0, ⟨m', news', [], 0⟩, ?_, hinv.frame, .inl ⟨rfl, rfl, hchild, g, tables, halike, hend, hinv⟩⟩
    unfold copy_memory_
    rw [hstart, Option.bind_some, hloop, Option.bind_some, if_pos rfl]

end

/-! A child of the process with one page. -/

end Chickadee.Ptable
