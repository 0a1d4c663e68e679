import Chickadee.Ptable.Freeing
import Chickadee.Ptable.Space

/-!
# What `try_map` maps

In the address space of a process `try_map` gives one page a new entry. It takes a page for each level at which a
table is missing and no other, and writes to nothing but the pages that it takes and to a table on the path of the
address. It fails just where the pages do not suffice, and then it leaves the tables that it has made.
-/

namespace Chickadee.Ptable

open Lib
open Vm (PAGESIZE VA_LOWMAX VA_LOWEND VA_HIGHMIN MEMSIZE_VIRTUAL pagesize va_is_canonical)

namespace Vmiter

/-- What a run of the loop of `try_map` that takes the pages `used` does. -/
structure Adds (m : Mem) (pt : ℕ) (it : Vmiter) (used : List ℕ) (m' : Mem) (it' : Vmiter) : Prop where
  level : it.level_ = it'.level_ + used.length
  frame : ∀ u j, u ∉ used → it.pep_ ≠ some (u, j) → m' u j = m u j
  pep : it'.pep_ = it.pep_ ∨ ∃ p j, p ∈ used ∧ it'.pep_ = some (p, j)
  tables : ∀ va l t, tableAt m' pt va l = some t → tableAt m pt va l = some t ∨ t ∈ used
  old : ∀ va l t, tableAt m pt va l = some t → tableAt m' pt va l = some t
  new : ∀ p ∈ used, ∃ l ≤ 2, tableAt m' pt it.va_ l = some p
  slots : it.va_ ≤ VA_LOWMAX → ∀ x ≤ VA_LOWMAX, ∀ e, Slot m pt x e → Slot m' pt x e

section

variable {m m' : Mem} {pt va t p : ℕ} {it it' : Vmiter} {news used : List ℕ} {perm : BitVec 64}

theorem Adds.refl (m : Mem) (pt : ℕ) (it : Vmiter) : Adds m pt it [] m it :=
  ⟨rfl, fun _ _ _ _ => rfl, .inl rfl, fun _ _ _ h => .inl h, fun _ _ _ h => h, fun p hp => absurd hp (by simp),
    fun _ _ _ _ h => h⟩

/-- An entry for a table takes no permission away. -/
theorem and_tableEntry (perm : BitVec 64) (p : ℕ) : perm &&& (tableEntry p ||| ~~~PTE_PWU) = perm := by
  have hones : PTE_PWU ||| ~~~PTE_PWU = BitVec.allOnes 64 := by decide
  rw [tableEntry_eq, BitVec.or_assoc, hones, BitVec.or_allOnes, BitVec.and_allOnes]

/-! ## New tables -/

/-- After the store the addresses of the region of the entry are sought in the new page. -/
theorem seek_addTable_region (htree : IsTree m pt) (hs : Stop m pt va 3 pt initial_perm it t) {level x : ℕ}
    (hlevel : it.level_ = level + 1) (hfresh : Fresh m pt (p :: news)) (hp : p < KTEXT_PA)
    (hx : va_is_canonical x = true) (hregion : x / pagesize it.level_ = va / pagesize it.level_) :
    seek (addTable m p (t, pageindex va it.level_)) pt x = some
      ⟨pt, some (p, pageindex x level), level, it.perm_, x⟩ := by
  have hindex := pageindex_of_le hregion le_rfl
  have hnew := addTable_new (m := m) (i := pageindex va it.level_) (hs.ne_fresh hfresh)
  have hentry : (addTable m p (t, pageindex va it.level_)).read (some (t, pageindex va it.level_)) = tableEntry p :=
    Mem.write_self _ _ _ _
  rw [hs.seek_eq hx (div_pagesize_of_le hregion (by omega)) fun l u hlt hl hu => ?_, hindex]
  · rw [hlevel, downLoop_table (by rw [← hlevel, hentry, subtable_tableEntry hp (hfresh.page p List.mem_cons_self)])
      (lt_trans hp (by decide)), ← hlevel, hentry, and_tableEntry,
      downLoop_leaf (.inr (by rw [read_some, hnew, subtable_zero]))]
  · refine addTable_frame ?_ (.inl ?_)
    · rintro rfl
      exact hfresh.notTable u List.mem_cons_self va l hu
    · rintro rfl
      have := (htree.level_eq hs.level_le hl hs.table hu).1
      omega

/-- A new table leaves the entries for the pages as they are. -/
theorem slot_addTable (htree : IsTree m pt) (hs : Stop m pt va 3 pt initial_perm it t) (hready : Ready m pt va it)
    {level : ℕ} (hlevel : it.level_ = level + 1) (hfresh : Fresh m pt (p :: news)) (hp : p < KTEXT_PA)
    (hva : va ≤ VA_LOWMAX) {x : ℕ} (hx : x ≤ VA_LOWMAX) {e : BitVec 64} (hslot : Slot m pt x e) :
    Slot (addTable m p (t, pageindex va it.level_)) pt x e := by
  have hle := hs.level_le
  have hlow : x < 2 ^ 48 ∧ va < 2 ^ 48 := by
    simp only [VA_LOWMAX] at hx hva
    omega
  by_cases hon : ∀ l, level < l → l ≤ 3 → pageindex x l = pageindex va l
  · have hregion : x / pagesize it.level_ = va / pagesize it.level_ := by
      rw [hlevel]
      exact region_eq_of_pageindex hlow.2 hlow.1 (by omega) hon
    have hcanon : va_is_canonical x = true := Vm.va_is_canonical_iff.2 (.inl hx)
    -- the entry was blank, and so is the one in the new page
    obtain ⟨it', hready', rfl⟩ := hslot
    have hit' := hready'.seek
    rw [seek_region hready.seek hregion] at hit'
    cases hit'
    have hzero := hready.blank (by omega)
    simp only
    rw [hzero]
    have hnew := addTable_new (m := m) (i := pageindex va it.level_) (hs.ne_fresh hfresh) (pageindex x level)
    exact ⟨_, ⟨seek_addTable_region htree hs hlevel hfresh hp hcanon hregion, hcanon, hready.perm, fun _ => hnew⟩, hnew⟩
  · refine hslot.congr fun l u hl hu => addTable_frame ?_ ?_
    · rintro rfl
      exact hfresh.notTable u List.mem_cons_self x l hu
    · by_contra hsame
      simp only [not_or, ne_eq, not_not] at hsame
      obtain ⟨rfl, hindex⟩ := hsame
      obtain ⟨rfl, habove⟩ := htree.level_eq hle hl hs.table hu
      refine hon fun l hlt hll => ?_
      by_cases heq : l = it.level_
      · rw [heq, hindex]
      · exact habove l (by omega) hll

/-- One new table. -/
theorem Ready.addTable (h : Ready m pt va it) (htree : IsTree m pt) {level : ℕ} (hlevel : it.level_ = level + 1)
    (hfresh : Fresh m pt (p :: news)) (hp : p < KTEXT_PA) :
    ∃ i it', it.pep_ = some i ∧ down (addTable m p i) it = some it' ∧ it'.va_ = it.va_ ∧
      Ready (addTable m p i) pt va it' ∧ Adds m pt it [p] (addTable m p i) it' := by
  obtain ⟨t, hs⟩ := h.stop
  have hle := hs.level_le
  have htp := hs.ne_fresh hfresh
  have hdown := down_addTable hs hlevel htp (hfresh.page p List.mem_cons_self) hp
  have hlink := addTable_link htree hs (by omega) hfresh hp
  refine ⟨_, _, hs.pep_eq, hdown, hs.va_eq.symm, ⟨seek_addTable htree h.canonical hs hfresh hdown, h.canonical,
    by rw [and_tableEntry, h.perm], fun _ => addTable_new htp _⟩, ?_⟩
  refine ⟨by simpa using hlevel, fun u j hu hne => ?_, .inr ⟨p, _, List.mem_singleton_self p, rfl⟩,
    fun va' l u hu => ?_, fun va' l u hu => ?_, fun q hq => ⟨level, by omega, ?_⟩, fun hva x hx e hslot => ?_⟩
  · rw [hs.pep_eq, ne_eq, Option.some.injEq, Prod.mk.injEq, not_and_or, eq_comm, eq_comm (b := j)] at hne
    exact addTable_frame (by simpa using hu) hne
  · rcases hlink.node_cases htree (by omega) hu with hold | ⟨rfl, -, -⟩
    · exact .inl hold
    · exact .inr (List.mem_singleton_self u)
  · exact hlink.node_mono htree (by omega) hu
  · obtain rfl := List.mem_singleton.1 hq
    have hnode := hlink.node_on htree fun j _ => rfl
    rw [node_eq_tableAt (by omega), show 3 - (3 - it.level_ + 1) = level by omega] at hnode
    rw [hs.va_eq, hnode]
  · rw [hs.va_eq] at hva
    exact slot_addTable htree hs h hlevel hfresh hp hva hx hslot

/-- A table and then others. -/
theorem Adds.cons {m₁ : Mem} {it₁ : Vmiter} (h₁ : Adds m pt it [p] m₁ it₁) (hva : it₁.va_ = it.va_)
    (h₂ : Adds m₁ pt it₁ used m' it') : Adds m pt it (p :: used) m' it' := by
  have hlevel₁ := h₁.level
  have hlevel₂ := h₂.level
  refine ⟨?_, ?_, ?_, ?_, ?_, ?_, ?_⟩
  · simp only [List.length_cons, List.length_nil] at *
    omega
  · intro u j hu hne
    rw [List.mem_cons, not_or] at hu
    rw [h₂.frame u j hu.2, h₁.frame u j (by simpa using hu.1) hne]
    intro hpep
    rcases h₁.pep with hsame | ⟨q, i, hq, hnew⟩
    · rw [hsame] at hpep
      exact hne hpep
    · rw [hnew] at hpep
      cases hpep
      exact hu.1 (List.mem_singleton.1 hq)
  · rcases h₂.pep with hsame | ⟨q, i, hq, hnew⟩
    · rcases h₁.pep with hsame₁ | ⟨q, i, hq, hnew⟩
      · exact .inl (by rw [hsame, hsame₁])
      · exact .inr ⟨q, i, by simp [List.mem_singleton.1 hq], by rw [hsame, hnew]⟩
    · exact .inr ⟨q, i, List.mem_cons_of_mem p hq, hnew⟩
  · intro va' l u hu
    rcases h₂.tables va' l u hu with hold | hnew
    · rcases h₁.tables va' l u hold with hold₁ | hnew
      · exact .inl hold₁
      · exact .inr (by simp [List.mem_singleton.1 hnew])
    · exact .inr (List.mem_cons_of_mem p hnew)
  · exact fun va' l u hu => h₂.old va' l u (h₁.old va' l u hu)
  · intro q hq
    rcases List.mem_cons.1 hq with rfl | hq
    · obtain ⟨l, hl, hnode⟩ := h₁.new q (List.mem_singleton_self q)
      exact ⟨l, hl, h₂.old _ l q hnode⟩
    · rw [← hva]
      exact h₂.new q hq
  · intro hlow x hx e hslot
    exact h₂.slots (by rw [hva]; exact hlow) x hx e (h₁.slots hlow x hx e hslot)

/-- The loop takes a page for each level, if there are so many. -/
theorem Ready.tableLoop (h : Ready m pt va it) (htree : IsTree m pt) (hfresh : Fresh m pt news)
    (hlt : ∀ p ∈ news, p < KTEXT_PA) (hperm : perm ≠ 0#64) :
    ∃ m' it' used, tableLoop perm news m it = some (m', it', decide (it.level_ ≤ news.length)) ∧
      used = news.take it.level_ ∧ Keeps m pt va m' it' ∧ Ready m' pt va it' ∧ Adds m pt it used m' it' := by
  induction news generalizing m it with
  | nil =>
    have hkeeps : Keeps m pt va m it := ⟨h.seek, htree, fun _ => rfl⟩
    refine ⟨m, it, [], ?_, by simp, hkeeps, h, .refl m pt it⟩
    unfold Vmiter.tableLoop
    by_cases hlevel : it.level_ > 0
    · rw [if_pos ⟨hlevel, hperm⟩, h.absent hlevel, if_neg (by simp)]
      simp only [List.length_nil, Nat.le_zero]
      rw [decide_eq_false (by omega)]
    · rw [if_neg (by simp [hlevel])]
      simp only [List.length_nil, Nat.le_zero]
      rw [decide_eq_true (by omega)]
  | cons p news ih =>
    unfold Vmiter.tableLoop
    by_cases hlevel : it.level_ > 0
    · obtain ⟨level, hsucc⟩ : ∃ level, it.level_ = level + 1 := ⟨it.level_ - 1, by omega⟩
      have hp := hlt p List.mem_cons_self
      obtain ⟨i, it₁, hpep, hdown, hva, hready, hadds⟩ := h.addTable htree hsucc hfresh hp
      obtain ⟨hkeeps, hfresh₁⟩ := keeps_addTable htree h.seek hlevel (h.absent hlevel) hfresh hp hpep hdown
      obtain ⟨m', it', used, hloop, hused, hkeeps', hready', hadds'⟩ :=
        ih hready hkeeps.tree hfresh₁ fun q hq => hlt q (List.mem_cons_of_mem p hq)
      have hlevel₁ := hadds.level
      rw [List.length_singleton] at hlevel₁
      rw [if_pos ⟨hlevel, hperm⟩, h.absent hlevel, if_neg (by simp [hp]), hpep, Option.bind_some, hdown,
        Option.bind_some, hloop]
      refine ⟨m', it', p :: used, ?_, ?_, ⟨hkeeps'.seek, hkeeps'.tree, fun x => ?_⟩, hready', hadds.cons hva hadds'⟩
      · rw [List.length_cons, hlevel₁]
        simp
      · rw [hused, hlevel₁, List.take_succ_cons]
      · rw [hkeeps'.translate, hkeeps.translate]
    · rw [if_neg (by simp [hlevel])]
      refine ⟨m, it, [], by rw [decide_eq_true (by omega)], ?_, ⟨h.seek, htree, fun _ => rfl⟩, h, .refl m pt it⟩
      rw [show it.level_ = 0 by omega, List.take_zero]

/-! ## The entry for the page -/

theorem tableAt_write_leaf (htree : IsTree m pt) (ht : tableAt m pt va 0 = some t) (e : BitVec 64) (x l : ℕ) :
    tableAt (m.write (t, pageindex va 0) e) pt x l = tableAt m pt x l := by
  refine htree.node_eq (d := 3) (k := va) le_rfl ht (by omega) ?_ (.inl (by omega))
  intro u j _ hne
  exact Mem.write_of_ne hne

end

end Vmiter

open Vmiter

section

variable {m m' : Mem} {pt va t p pa : ℕ} {it it' : Vmiter} {news used : List ℕ} {perm e : BitVec 64}
  {f : ℕ → BitVec 64}

theorem lt_of_low (hva : va ≤ VA_LOWMAX) : va < 2 ^ 64 := lt_of_le_of_lt hva (by decide)

/-- A store to the entry of a page, through a `vmiter` at that page. -/
theorem Space.write_leaf (h : Space m pt f) (hready : Ready m pt va it) (hlow : va ≤ VA_LOWMAX)
    (hlevel : it.level_ = 0) (he : Vmiter.inMemory e = true) :
    ∃ t, it.pep_ = some (t, pageindex va 0) ∧ tableAt m pt va 0 = some t ∧
      Space (m.write (t, pageindex va 0) e) pt (Function.update f (va / PAGESIZE) e) ∧
      Ready (m.write (t, pageindex va 0) e) pt va it := by
  obtain ⟨t, hs⟩ := hready.stop
  have ht := hs.table
  have hpep := hs.pep_eq
  rw [hlevel] at ht hpep
  obtain ⟨hseek, htree, -⟩ := Vmiter.write_leaf h.tree hready.canonical (lt_of_low hlow) hs hlevel e
  have hready' : Ready (m.write (t, pageindex va 0) e) pt va it :=
    ⟨hseek, hready.canonical, hready.perm, fun hpos => absurd hpos (by omega)⟩
  refine ⟨t, hpep, ht, ⟨htree, fun x hx => ?_, fun p => ?_⟩, hready'⟩
  · by_cases hpage : x / PAGESIZE = va / PAGESIZE
    · rw [hpage, Function.update_self]
      have hregion : x / pagesize it.level_ = va / pagesize it.level_ := by rw [hlevel, Vm.pagesize_zero, hpage]
      refine ⟨_, hready'.region hregion, ?_⟩
      rw [hpep, read_some, Mem.write_self]
    · rw [Function.update_of_ne hpage]
      refine (h.slot x hx).congr fun l u hl hu => Mem.write_of_ne ?_
      exact leaf_off h.tree hready.canonical (lt_of_low hlow) ht (low_canonical hx) (lt_of_low hx) hpage hl hu
  · by_cases hp : p = va / PAGESIZE
    · rw [hp, Function.update_self, he]
    · rw [Function.update_of_ne hp, h.inMemory]

/-- What `try_map(pa, perm)` is asked for: a page and what may be done with it. -/
structure Mapping (pa : ℕ) (perm : BitVec 64) : Prop where
  page : pa % PAGESIZE = 0
  lt : pa < 0x100000000
  flags : perm &&& 0xFFF#64 = perm
  present : perm &&& PTE_P = PTE_P

namespace Mapping

theorem toNat (h : Mapping pa perm) : (BitVec.ofNat 64 pa).toNat = pa := by
  rw [BitVec.toNat_ofNat]
  exact Nat.mod_eq_of_lt (lt_trans h.lt (by decide))

theorem and_low (h : Mapping pa perm) (mask : BitVec 64) (hmask : mask &&& 0xFFF#64 = mask) :
    BitVec.ofNat 64 pa &&& mask = 0#64 := and_low_bits (by rw [h.toNat, h.page]) mask hmask

theorem and_pamask (h : Mapping pa perm) : BitVec.ofNat 64 pa &&& PTE_PAMASK = BitVec.ofNat 64 pa :=
  Vmiter.and_pamask (by rw [h.toNat, h.page]) (by rw [h.toNat]; exact lt_trans h.lt (by decide))

theorem ne_zero (h : Mapping pa perm) : perm ≠ 0#64 := by
  rintro rfl
  exact absurd h.present (by decide)

/-- The entry leads to the page. -/
theorem entryPa_eq (h : Mapping pa perm) : entryPa (BitVec.ofNat 64 pa ||| perm) = pa := by
  have hflags : perm &&& PTE_PAMASK = 0#64 := by
    have hdisjoint : 0xFFF#64 &&& PTE_PAMASK = 0#64 := by decide
    rw [← h.flags, BitVec.and_assoc, hdisjoint, BitVec.and_zero]
  unfold entryPa
  rw [BitVec.and_or_distrib_right, h.and_pamask, hflags, BitVec.or_zero, h.toNat]

/-- It has the permissions. -/
theorem entry_and (h : Mapping pa perm) (mask : BitVec 64) (hmask : mask &&& 0xFFF#64 = mask) :
    (BitVec.ofNat 64 pa ||| perm) &&& mask = perm &&& mask := by
  rw [BitVec.and_or_distrib_right, h.and_low mask hmask, BitVec.zero_or]

theorem inMemory_entry (h : Mapping pa perm) : inMemory (BitVec.ofNat 64 pa ||| perm) = true := by
  have hpa := h.entryPa_eq
  unfold entryPa at hpa
  unfold inMemory
  rw [hpa]
  exact decide_eq_true h.lt

/-- The assertions of `try_map` hold. -/
theorem asserts (h : Mapping pa perm) (halign : it.va_ % PAGESIZE = 0) (hperm : it.perm_ &&& PTE_PWU = PTE_PWU) :
    mapAsserts it (BitVec.ofNat 64 pa) perm := by
  refine ⟨halign, fun _ => ⟨?_, h.and_pamask⟩, fun hzero => ?_, ?_⟩
  · intro hones
    have hlow := h.and_low 1#64 (by decide)
    rw [hones] at hlow
    exact absurd hlow (by decide)
  · rw [h.present] at hzero
    exact absurd hzero (by decide)
  · have hnot : ~~~it.perm_ &&& PTE_PWU = 0#64 := by
      rw [← hperm, ← BitVec.and_assoc]
      ext i hi
      simp
    rw [BitVec.and_assoc, hnot, BitVec.and_zero]

/-- Permissions are an `int` when they are passed on. -/
theorem signExtend (h : Mapping pa perm) : (perm.truncate 32).signExtend 64 = perm := by
  have hlt : perm.toNat < 4096 := by
    have hle : (perm &&& 0xFFF#64).toNat ≤ 4095 := by
      rw [BitVec.toNat_and]
      exact Nat.and_le_right
    rw [h.flags] at hle
    omega
  have hlow : (perm.truncate 32).toNat = perm.toNat := by
    rw [BitVec.toNat_setWidth, Nat.mod_eq_of_lt (by omega)]
  apply BitVec.eq_of_toNat_eq
  rw [BitVec.toNat_signExtend, BitVec.msb_eq_false_iff_two_mul_lt.2 (by omega), BitVec.toNat_setWidth, hlow]
  simp only [Bool.false_eq_true, if_false, Nat.add_zero]
  exact Nat.mod_eq_of_lt (by omega)

end Mapping

/-- What a call of `try_map` that takes the pages `used` does to memory. -/
structure Maps (m : Mem) (pt va : ℕ) (used : List ℕ) (m' : Mem) : Prop where
  frame : ∀ u, u ∉ used → (∀ l, tableAt m pt va l ≠ some u) → m' u = m u
  tables : ∀ x l t, tableAt m' pt x l = some t → tableAt m pt x l = some t ∨ t ∈ used
  old : ∀ x l t, tableAt m pt x l = some t → tableAt m' pt x l = some t
  new : ∀ p ∈ used, ∃ l ≤ 2, tableAt m' pt va l = some p

/-- **`try_map` at a page of an address space** takes a page for each table that is missing. If there are so many, the
page gets the entry that is asked for, else no page gets another entry. -/
theorem Space.try_map (h : Space m pt f) (hready : Ready m pt va it) (hlow : va ≤ VA_LOWMAX) (halign : va % PAGESIZE = 0)
    (hfresh : Fresh m pt news) (hlt : ∀ p ∈ news, p < KTEXT_PA) (hmap : Mapping pa perm) :
    ∃ m' it', it.try_map m (BitVec.ofNat 64 pa) (perm.truncate 32) news
        = some (m', it', if it.level_ ≤ news.length then 0 else -1) ∧
      it.level_ - it'.level_ = min it.level_ news.length ∧ Maps m pt va (news.take it.level_) m' ∧
      Space m' pt (if it.level_ ≤ news.length then
        Function.update f (va / PAGESIZE) (BitVec.ofNat 64 pa ||| perm) else f) := by
  have hva := seek_va hready.seek
  have hpa : mapPa (BitVec.ofNat 64 pa) perm = BitVec.ofNat 64 pa := if_neg (by simp [hmap.ne_zero])
  have hasserts : mapAsserts it (BitVec.ofNat 64 pa) perm := hmap.asserts (by rw [hva, halign]) (by rw [hready.perm]; decide)
  obtain ⟨m₁, it', used, hloop, rfl, hkeeps, hready', hadds⟩ := hready.tableLoop h.tree hfresh hlt hmap.ne_zero
  have hspace : Space m₁ pt f :=
    ⟨hkeeps.tree, fun x hx => hadds.slots (by rwa [hva]) x hx _ (h.slot x hx), h.inMemory⟩
  have hlevel := hadds.level
  rw [List.length_take] at hlevel
  obtain ⟨t, hs⟩ := hready.stop
  have hframe : ∀ u, u ∉ news.take it.level_ → (∀ l, tableAt m pt va l ≠ some u) → m₁ u = m u := by
    intro u hu hnot
    funext j
    refine hadds.frame u j hu ?_
    rw [hs.pep_eq]
    intro heq
    cases heq
    exact hnot it.level_ hs.table
  have hnew := hadds.new
  rw [hva] at hnew
  unfold Vmiter.try_map
  simp only
  rw [hmap.signExtend, hpa, if_pos hasserts, hloop, Option.bind_some]
  by_cases hlen : it.level_ ≤ news.length
  · have hzero : it'.level_ = 0 := by omega
    obtain ⟨t', hpep, ht', hspace', -⟩ := hspace.write_leaf hready' hlow hzero hmap.inMemory_entry
    have htables := tableAt_write_leaf hkeeps.tree ht' (BitVec.ofNat 64 pa ||| perm)
    simp only [hlen, decide_true, if_true]
    unfold mapEntry
    rw [if_pos hzero, hpep, Option.map_some]
    refine ⟨_, _, rfl, by omega, ⟨fun u hu hnot => ?_, fun x l u hu => ?_, fun x l u hu => ?_, fun p hp => ?_⟩, hspace'⟩
    · -- the table at level 0 is new or was on the path
      have hne : u ≠ t' := by
        rintro rfl
        rcases hadds.tables va 0 u ht' with hold | hin
        · exact hnot 0 hold
        · exact hu hin
      funext j
      rw [Mem.write_of_ne (.inl hne), hframe u hu hnot]
    · rw [htables] at hu
      exact hadds.tables x l u hu
    · rw [htables]
      exact hadds.old x l u hu
    · obtain ⟨l, hl, hp'⟩ := hnew p hp
      exact ⟨l, hl, by rw [htables, hp']⟩
  · simp only [hlen, decide_false, if_false, Bool.false_eq_true]
    exact ⟨_, _, rfl, by omega, ⟨hframe, hadds.tables, hadds.old, hnew⟩, hspace⟩

/-! ## The tables of the low half -/

theorem Maps.isLowTable_iff (h : Maps m pt va used m') (hlow : va ≤ VA_LOWMAX) :
    IsLowTable m' pt t ↔ IsLowTable m pt t ∨ t ∈ used := by
  constructor
  · rintro ⟨x, l, hx, hl, ht⟩
    rcases h.tables x l t ht with hold | hin
    · exact .inl ⟨x, l, hx, hl, hold⟩
    · exact .inr hin
  · rintro (⟨x, l, hx, hl, ht⟩ | hin)
    · exact ⟨x, l, hx, hl, h.old x l t ht⟩
    · obtain ⟨l, hl, ht⟩ := h.new t hin
      exact ⟨va, l, hlow, hl, ht⟩

/-- The pages that are left are in no table. -/
theorem Maps.fresh {n : ℕ} (h : Maps m pt va (news.take n) m') (hfresh : Fresh m pt news) :
    Fresh m' pt (news.drop n) := by
  refine ⟨fun q hq => hfresh.page q (List.mem_of_mem_drop hq), hfresh.nodup.sublist (List.drop_sublist n news), ?_⟩
  intro q hq x l ht
  rcases h.tables x l q ht with hold | hin
  · exact hfresh.notTable q (List.mem_of_mem_drop hq) x l hold
  · exact List.disjoint_take_drop hfresh.nodup le_rfl hin hq

end

end Chickadee.Ptable
