import Chickadee.Elf.Load

/-!
# The tables of a new program

Below `VA_LOWEND` a new page table has no large page and no table that is not reached. `try_map` keeps this, and
what it takes from the allocator it puts in an entry: the entries are the slots of a pool of pages.
-/

namespace Chickadee.Elf

open Lib Fs Vm

variable {m m' : Space} {pt : PageTable} {va pa level i : ℕ} {again : Prop}

/-! ## The entries below `VA_LOWEND` -/

/-- The level and the index of an entry for addresses below `VA_LOWEND`. -/
def Low (s : ℕ × ℕ) : Prop := s.1 ≤ 3 ∧ s.2 * pagesize s.1 < VA_LOWEND

instance : DecidablePred Low := fun s => inferInstanceAs (Decidable (s.1 ≤ 3 ∧ s.2 * pagesize s.1 < VA_LOWEND))

theorem pagesize_succ (level : ℕ) : pagesize (level + 1) = pagesize level * 512 := by
  unfold pagesize
  rw [show 12 + 9 * (level + 1) = 12 + 9 * level + 9 by omega, Nat.pow_add]

theorem div_pagesize_succ (va level : ℕ) : va / pagesize (level + 1) = va / pagesize level / 512 := by
  rw [pagesize_succ, Nat.div_div_eq_div_mul]

theorem low_of_lt (hlevel : level ≤ 3) (hva : va < VA_LOWEND) : Low (level, va / pagesize level) :=
  ⟨hlevel, lt_of_le_of_lt (Nat.div_mul_le_self va _) hva⟩

theorem low_page (hva : va < VA_LOWEND) : Low (0, va / PAGESIZE) := low_of_lt (Nat.zero_le 3) hva

theorem Low.parent (h : Low (level, i)) (hlevel : level < 3) : Low (level + 1, i / 512) := by
  refine ⟨hlevel, lt_of_le_of_lt ?_ h.2⟩
  show i / 512 * pagesize (level + 1) ≤ i * pagesize level
  rw [pagesize_succ, mul_comm (pagesize level), ← mul_assoc]
  exact Nat.mul_le_mul_right _ (Nat.div_mul_le_self i 512)

/-- The page or the table that an entry leads to. -/
def slots (pt : PageTable) (s : ℕ × ℕ) : Option ℕ := if Low s then (pt s.1 s.2).map Pte.pa else none

/-- The pages that the allocator has left, and those in the entries. -/
def pool (m : Space) : Pool (ℕ × ℕ) ℕ := ⟨m.free, slots m.pt⟩

theorem slots_eq_none (h : Low (level, i)) : slots pt (level, i) = none ↔ pt level i = none := by
  unfold slots
  rw [if_pos h, Option.map_eq_none_iff]

/-- The tables are in order: an entry above level 0 is a table for user pages, and an entry is in a table. -/
structure Shape (pt : PageTable) : Prop where
  table : ∀ level i pe, 0 < level → Low (level, i) → pt level i = some pe → pe = ⟨pe.pa, true, true, false⟩
  parent : ∀ level i, level < 3 → Low (level, i) → pt level i ≠ none → pt (level + 1) (i / 512) ≠ none

/-- A walk ends at level 0, or at the first level without an entry. -/
theorem Shape.down_eq (h : Shape pt) (hva : va < VA_LOWEND) (level : ℕ) (hlevel : level ≤ 3) :
    ∃ l ≤ level, down pt va level true true = ⟨va, l, true, true, pt l (va / pagesize l)⟩ ∧
      (0 < l → pt l (va / pagesize l) = none) ∧
        ∀ l', l < l' → l' ≤ level → pt l' (va / pagesize l') ≠ none := by
  induction level with
  | zero => exact ⟨0, le_rfl, rfl, fun h => absurd h (lt_irrefl 0), fun l' h h' => absurd h (by omega)⟩
  | succ level ih =>
    unfold down
    cases hpe : pt (level + 1) (va / pagesize (level + 1)) with
    | none => exact ⟨level + 1, le_rfl, by rw [hpe], fun _ => hpe, fun l' h h' => absurd h (by omega)⟩
    | some pe =>
      have htable := h.table (level + 1) _ pe (Nat.succ_pos level) (low_of_lt hlevel hva) hpe
      obtain ⟨l, hl, hdown, hnone, habove⟩ := ih (by omega)
      refine ⟨l, by omega, ?_, hnone, fun l' hl' hle => ?_⟩
      · dsimp only
        rw [htable]
        exact hdown
      · rcases Nat.lt_or_ge level l' with hlt | hge
        · obtain rfl : l' = level + 1 := by omega
          rw [hpe]
          exact Option.some_ne_none pe
        · exact habove l' hl' hge

theorem Shape.find_eq (h : Shape pt) (hva : va < VA_LOWEND) :
    ∃ l ≤ 3, find pt va = ⟨va, l, true, true, pt l (va / pagesize l)⟩ ∧
      (0 < l → pt l (va / pagesize l) = none) ∧ ∀ l', l < l' → l' ≤ 3 → pt l' (va / pagesize l') ≠ none := by
  have hcanonical : va_is_canonical va = true := va_is_canonical_iff.mpr (.inl (Nat.le_of_lt_succ hva))
  unfold find
  rw [if_pos hcanonical]
  exact h.down_eq hva 3 le_rfl

/-- All tables above a page are there. -/
theorem Shape.above (h : Shape pt) (hva : va < VA_LOWEND) (hpage : pt 0 (va / pagesize 0) ≠ none) (l : ℕ)
    (hl : l ≤ 3) : pt l (va / pagesize l) ≠ none := by
  induction l with
  | zero => exact hpage
  | succ l ih =>
    rw [div_pagesize_succ]
    exact h.parent l _ (by omega) (low_of_lt (by omega) hva) (ih (by omega))

/-- An address in a page that is mapped. -/
theorem Shape.find_page (h : Shape pt) (hva : va < VA_LOWEND) {pe : Pte}
    (hpage : pt 0 (va / PAGESIZE) = some pe) : find pt va = ⟨va, 0, true, true, some pe⟩ := by
  obtain ⟨l, hl, hfind, hnone, _⟩ := h.find_eq hva
  have hsome : pt l (va / pagesize l) ≠ none :=
    h.above hva (by rw [pagesize_zero, hpage]; exact Option.some_ne_none pe) l hl
  obtain rfl : l = 0 := Nat.eq_zero_of_not_pos fun hpos => hsome (hnone hpos)
  rw [hfind, pagesize_zero, hpage]

/-- The physical address is that of the page of level 0. -/
theorem Shape.find_pa (h : Shape pt) (hva : va < VA_LOWEND) :
    (find pt va).pa = (pt 0 (va / PAGESIZE)).map fun pe => pe.pa + va % PAGESIZE := by
  cases hpage : pt 0 (va / PAGESIZE) with
  | some pe => rw [h.find_page hva hpage]; rfl
  | none =>
    obtain ⟨l, hl, hfind, hnone, _⟩ := h.find_eq hva
    have : pt l (va / pagesize l) = none := by
      rcases Nat.eq_zero_or_pos l with rfl | hpos
      · exact hpage
      · exact hnone hpos
    rw [hfind, this]
    rfl

/-! ## A new entry -/

theorem set_pt_self : (m.set level i pa).pt level i = some ⟨pa, true, true, false⟩ := if_pos ⟨rfl, rfl⟩

theorem set_pt_of_ne {l j : ℕ} (h : ¬(l = level ∧ j = i)) : (m.set level i pa).pt l j = m.pt l j := if_neg h

/-- An entry that is in a table keeps the tables in order. -/
theorem Shape.set (h : Shape m.pt) (hparent : level < 3 → m.pt (level + 1) (i / 512) ≠ none) :
    Shape (m.set level i pa).pt := by
  refine ⟨fun l j pe hl hlow hpe => ?_, fun l j hl hlow hne => ?_⟩
  · by_cases hat : l = level ∧ j = i
    · obtain ⟨rfl, rfl⟩ := hat
      rw [set_pt_self] at hpe
      rw [← Option.some.inj hpe]
    · rw [set_pt_of_ne hat] at hpe
      exact h.table l j pe hl hlow hpe
  · by_cases habove : l + 1 = level ∧ j / 512 = i
    · obtain ⟨rfl, rfl⟩ := habove
      rw [set_pt_self]
      exact Option.some_ne_none _
    · rw [set_pt_of_ne habove]
      by_cases hat : l = level ∧ j = i
      · obtain ⟨rfl, rfl⟩ := hat
        exact hparent hl
      · rw [set_pt_of_ne hat] at hne
        exact h.parent l j hl hlow hne

theorem slots_set (hlow : Low (level, i)) :
    slots (m.set level i pa).pt = Function.update (slots m.pt) (level, i) (some pa) := by
  funext s
  obtain ⟨l, j⟩ := s
  by_cases hat : l = level ∧ j = i
  · obtain ⟨rfl, rfl⟩ := hat
    rw [Function.update_self]
    unfold slots
    rw [if_pos hlow, set_pt_self]
    rfl
  · have hne : (l, j) ≠ (level, i) := fun he => hat (Prod.mk.injEq .. ▸ he)
    rw [Function.update_of_ne hne]
    unfold slots
    rw [set_pt_of_ne hat]

/-- The table that is about to be added, with its entries cleared. -/
def cleared (m : Space) (level i : ℕ) : Space :=
  { m with pt := fun l j => if l + 1 = level ∧ j / 512 = i then none else m.pt l j }

theorem setTable_eq (m : Space) (level i pa : ℕ) : m.setTable level i pa = (cleared m level i).set level i pa := rfl

/-- Where there is no table, clearing its entries changes nothing. -/
theorem Shape.cleared_pt (h : Shape m.pt) (hlevel : level ≤ 3) (hnone : m.pt level i = none) {l j : ℕ}
    (hlow : Low (l, j)) : (cleared m level i).pt l j = m.pt l j := by
  refine ite_eq_right_iff.mpr ?_
  rintro ⟨rfl, rfl⟩
  by_contra hne
  exact h.parent l j (by omega) hlow (fun he => hne he.symm) hnone

theorem Shape.cleared (h : Shape m.pt) (hlevel : level ≤ 3) (hnone : m.pt level i = none) :
    Shape (cleared m level i).pt := by
  refine ⟨fun l j pe hl hlow hpe => ?_, fun l j hl hlow hne => ?_⟩
  · rw [h.cleared_pt hlevel hnone hlow] at hpe
    exact h.table l j pe hl hlow hpe
  · rw [h.cleared_pt hlevel hnone hlow] at hne
    rw [h.cleared_pt hlevel hnone (hlow.parent hl)]
    exact h.parent l j hl hlow hne

theorem slots_cleared (h : Shape m.pt) (hlevel : level ≤ 3) (hnone : m.pt level i = none) :
    slots (cleared m level i).pt = slots m.pt := by
  funext s
  unfold slots
  split
  · rename_i hlow
    rw [h.cleared_pt hlevel hnone hlow]
  · rfl

/-! ## `try_map` -/

/-- A table is put in an empty entry above level 0. -/
def Tables (s : ℕ × ℕ) (o : Option ℕ) : Prop := 0 < s.1 ∧ o = none

/-- What a call leaves alone, and that the tables stay in order. -/
structure Keeps (m m' : Space) : Prop where
  shape : Shape m'.pt
  byte : m'.byte = m.byte
  entry : m'.entry_rip_ = m.entry_rip_

theorem Keeps.trans {m₁ : Space} (h : Keeps m m₁) (h' : Keeps m₁ m') : Keeps m m' :=
  ⟨h'.shape, h'.byte.trans h.byte, h'.entry.trans h.entry⟩

/-- The tables for `va` below a level with an entry. -/
theorem addTables_spec (hva : va < VA_LOWEND) (pg level : ℕ) (hlevel : level ≤ 3) (h : Shape m.pt)
    (hnone : 0 < level → m.pt level (va / pagesize level) = none)
    (habove : ∀ l, level < l → l ≤ 3 → m.pt l (va / pagesize l) ≠ none) :
    ∃ ok m', addTables va level m = (ok, m') ∧ Keeps m m' ∧
      Pool.Puts Tables (pool (m.kfree pg)) (pool (m'.kfree pg)) ∧
      (ok = true → ∀ l, 0 < l → l ≤ 3 → m'.pt l (va / pagesize l) ≠ none) ∧
      (level ≤ m.free.length → ok = true ∧ m.free.length = m'.free.length + level) := by
  induction level generalizing m with
  | zero => exact ⟨true, m, rfl, ⟨h, rfl, rfl⟩, .refl _, fun _ => habove, fun _ => ⟨rfl, rfl⟩⟩
  | succ level ih =>
    unfold addTables Space.kalloc
    cases hfree : m.free with
    | nil => exact ⟨false, m, rfl, ⟨h, rfl, rfl⟩, .refl _, nofun, fun hle => by simp at hle⟩
    | cons pa free =>
      dsimp only
      have hempty := hnone (Nat.succ_pos level)
      have hlow : Low (level + 1, va / pagesize (level + 1)) := low_of_lt hlevel hva
      set m₀ : Space := { m with free := free }
      have h₀ : Shape m₀.pt := h
      have hempty₀ : m₀.pt (level + 1) (va / pagesize (level + 1)) = none := hempty
      have hshape : Shape (m₀.setTable (level + 1) (va / pagesize (level + 1)) pa).pt := by
        refine (h₀.cleared hlevel hempty₀).set fun hlt => ?_
        rw [h₀.cleared_pt hlevel hempty₀ (hlow.parent hlt), ← div_pagesize_succ]
        exact habove (level + 2) (by omega) (by omega)
      have hput : Pool.Put (level + 1, va / pagesize (level + 1)) (pool (m.kfree pg))
          (pool ((m₀.setTable (level + 1) (va / pagesize (level + 1)) pa).kfree pg)) := by
        refine ⟨pa, ?_, ?_⟩
        · show (pg :: m.free).Perm (pa :: pg :: free)
          rw [hfree]
          exact List.Perm.swap pa pg free
        · show slots (m₀.setTable (level + 1) (va / pagesize (level + 1)) pa).pt = _
          rw [setTable_eq, slots_set hlow, slots_cleared h₀ hlevel hempty₀]
          rfl
      -- The new table is empty, and all tables above it are there.
      have hempty' : 0 < level → (m₀.setTable (level + 1) (va / pagesize (level + 1)) pa).pt level
          (va / pagesize level) = none := by
        intro hpos
        rw [setTable_eq, set_pt_of_ne (by omega)]
        exact if_pos ⟨rfl, (div_pagesize_succ va level).symm⟩
      have habove' : ∀ l, level < l → l ≤ 3 →
          (m₀.setTable (level + 1) (va / pagesize (level + 1)) pa).pt l (va / pagesize l) ≠ none := by
        intro l hl hle
        rw [setTable_eq]
        by_cases hat : l = level + 1
        · subst hat
          rw [set_pt_self]
          exact Option.some_ne_none _
        · rw [set_pt_of_ne (fun he => hat he.1)]
          show (if l + 1 = level + 1 ∧ _ then none else m.pt l (va / pagesize l)) ≠ none
          rw [if_neg (by omega)]
          exact habove l (by omega) hle
      obtain ⟨ok, m', heq, hkeeps, hputs, hall, hcount⟩ := ih (by omega) hshape hempty' habove'
      have hslot : Tables (level + 1, va / pagesize (level + 1))
          ((pool (m.kfree pg)).held (level + 1, va / pagesize (level + 1))) :=
        ⟨Nat.succ_pos level, (slots_eq_none hlow).mpr hempty⟩
      refine ⟨ok, m', heq, ⟨hkeeps.shape, hkeeps.byte, hkeeps.entry⟩, (Pool.Puts.single hslot hput).trans hputs,
        hall, fun hle => ?_⟩
      rw [List.length_cons] at hle ⊢
      obtain ⟨hok, hlen⟩ := hcount (Nat.le_of_succ_le_succ hle)
      have hlen' : free.length = m'.free.length + level := hlen
      exact ⟨hok, by omega⟩

/-- A page of `v` is put in its entry, which is empty unless a page may be mapped `again`. -/
def Pages (again : Prop) (v : ℕ → Prop) (s : ℕ × ℕ) (o : Option ℕ) : Prop :=
  Tables s o ∨ s.1 = 0 ∧ v s.2 ∧ (o = none ∨ again)

theorem Pages.mono {v w : ℕ → Prop} (hvw : ∀ x, v x → w x) (s : ℕ × ℕ) (o : Option ℕ) (h : Pages again v s o) :
    Pages again w s o := by
  rcases h with h | ⟨h, hv, ho⟩
  · exact .inl h
  · exact .inr ⟨h, hvw _ hv, ho⟩

/-- A page below `VA_LOWEND` is mapped, unless memory runs out. -/
theorem try_map_spec {pg : ℕ} (hva : va < VA_LOWEND) (halign : va % PAGESIZE = 0) (hpg : pg % PAGESIZE = 0)
    (h : Shape m.pt) (hslot : slots m.pt (0, va / PAGESIZE) = none ∨ again) :
    ∃ ok m', try_map va pg m = some (ok, m') ∧ Keeps m m' ∧
      (ok = false → Pool.Puts Tables (pool (m.kfree pg)) (pool (m'.kfree pg))) ∧
      (ok = true → Pool.Puts (Pages again (· = va / PAGESIZE)) (pool (m.kfree pg)) (pool m') ∧
        slots m'.pt (0, va / PAGESIZE) = some pg) ∧
      (3 ≤ m.free.length → ok = true ∧ m.free.length ≤ m'.free.length + 3) := by
  obtain ⟨l, hl, hfind, hnone, habove⟩ := h.find_eq hva
  obtain ⟨ok, m', heq, hkeeps, hputs, hall, hcount⟩ := addTables_spec hva pg l hl h hnone habove
  have hassert : ¬(va % PAGESIZE ≠ 0 ∨ pg % PAGESIZE ≠ 0 ∨ (find m.pt va).w = false ∨ (find m.pt va).u = false ∨
      (0 < (find m.pt va).level_ ∧ (find m.pt va).present = true)) := by
    rw [hfind]
    rintro (hne | hne | hne | hne | ⟨hpos, hpresent⟩)
    · exact hne halign
    · exact hne hpg
    · exact absurd hne (by simp)
    · exact absurd hne (by simp)
    · dsimp only [Vmiter.present] at hpos hpresent
      rw [hnone hpos] at hpresent
      exact absurd hpresent (by simp)
  unfold try_map
  dsimp only
  rw [if_neg hassert, hfind]
  dsimp only
  rw [heq]
  cases ok with
  | false =>
    refine ⟨false, m', rfl, hkeeps, fun _ => hputs, nofun, fun hlen => ?_⟩
    exact absurd (hcount (by omega)).1 (by simp)
  | true =>
    have hlow : Low (0, va / pagesize 0) := low_of_lt (Nat.zero_le 3) hva
    have hshape : Shape (m'.set 0 (va / pagesize 0) pg).pt := by
      refine hkeeps.shape.set fun _ => ?_
      rw [← div_pagesize_succ]
      exact hall rfl 1 Nat.one_pos (by omega)
    have hkept : slots m'.pt (0, va / PAGESIZE) = slots m.pt (0, va / PAGESIZE) :=
      hputs.held_eq fun ht => absurd ht.1 (lt_irrefl 0)
    have hput : Pool.Put (0, va / PAGESIZE) (pool (m'.kfree pg)) (pool (m'.set 0 (va / pagesize 0) pg)) :=
      ⟨pg, .refl _, slots_set hlow⟩
    refine ⟨true, _, rfl, ⟨hshape, hkeeps.byte, hkeeps.entry⟩, nofun, fun _ => ⟨?_, ?_⟩, fun hlen => ?_⟩
    · refine (hputs.mono fun _ _ => .inl).step (.inr ⟨rfl, rfl, ?_⟩) hput
      show slots m'.pt (0, va / PAGESIZE) = none ∨ again
      rw [hkept]
      exact hslot
    · rw [← pagesize_zero, slots_set hlow, Function.update_self]
    · obtain ⟨-, hle⟩ := hcount (by omega)
      have : m.free.length ≤ m'.free.length + 3 := by omega
      exact ⟨rfl, this⟩

/-! ## The pages of a segment -/

theorem div_add_page (va : ℕ) : (va + PAGESIZE) / PAGESIZE = va / PAGESIZE + 1 :=
  Nat.add_div_right va (by decide)

/-- The pages from `va` up to `end_mem` are mapped, unless memory runs out. -/
theorem allocPages_spec {end_mem : ℕ} (hend : end_mem ≤ VA_LOWEND) (n : ℕ) (halign : va % PAGESIZE = 0)
    (hfuel : end_mem + PAGESIZE ≤ va + n * PAGESIZE) (hn : 0 < n) (h : Shape m.pt)
    (hfree : ∀ pg ∈ m.free, pg % PAGESIZE = 0)
    (hslot : ∀ v, va / PAGESIZE ≤ v → v * PAGESIZE < end_mem → slots m.pt (0, v) = none ∨ again) :
    ∃ ok m', allocPages end_mem n va m = some (ok, m') ∧ Keeps m m' ∧
      Pool.Puts (Pages again fun v => va / PAGESIZE ≤ v ∧ v * PAGESIZE < end_mem) (pool m) (pool m') ∧
      (ok = true → ∀ v, va / PAGESIZE ≤ v → v * PAGESIZE < end_mem →
        ∃ pg ∈ m.free, slots m'.pt (0, v) = some pg) ∧
      ∀ k, end_mem ≤ va + k * PAGESIZE → 4 * k ≤ m.free.length →
        ok = true ∧ m.free.length ≤ m'.free.length + 4 * k := by
  induction n generalizing m va with
  | zero => exact absurd hn (lt_irrefl 0)
  | succ n ih =>
    have hpage : va / PAGESIZE * PAGESIZE = va := Nat.div_mul_cancel (Nat.dvd_of_mod_eq_zero halign)
    unfold allocPages
    split
    · rename_i hlt
      unfold Space.kalloc
      cases hm : m.free with
      | nil =>
        refine ⟨false, m, rfl, ⟨h, rfl, rfl⟩, .refl _, nofun, fun k hk hlen => ?_⟩
        have hzero : k = 0 := by simpa using hlen
        rw [hzero] at hk
        exact absurd hlt (by omega)
      | cons pg free =>
        dsimp only
        have hpg : pg % PAGESIZE = 0 := hfree pg (by rw [hm]; exact List.mem_cons_self)
        set m₀ : Space := { m with free := free }
        have hback : pool (m₀.kfree pg) = pool m := by
          show Pool.mk (pg :: free) (slots m.pt) = Pool.mk m.free (slots m.pt)
          rw [hm]
        obtain ⟨ok, m₁, heq, hkeeps, hfail, hdone, hcount⟩ := try_map_spec (m := m₀) (lt_of_lt_of_le hlt hend)
          halign hpg h (hslot _ le_rfl (by rw [hpage]; exact hlt))
        rw [heq]
        cases ok with
        | false =>
          refine ⟨false, m₁.kfree pg, rfl, ⟨hkeeps.shape, hkeeps.byte, hkeeps.entry⟩, ?_, nofun, fun k hk hlen => ?_⟩
          · rw [← hback]
            exact (hfail rfl).mono fun _ _ => .inl
          · rw [List.length_cons] at hlen
            have hpos : k ≠ 0 := by
              rintro rfl
              omega
            exact absurd (hcount (by show 3 ≤ free.length; omega)).1 (by simp)
        | true =>
          obtain ⟨hputs, hmapped⟩ := hdone rfl
          rw [hback] at hputs
          have hsub : ∀ x ∈ m₁.free, x ∈ m.free := fun x hx => hputs.mem hx
          have hlater : ∀ v, (va + PAGESIZE) / PAGESIZE ≤ v → slots m₁.pt (0, v) = slots m.pt (0, v) := by
            intro v hv
            rw [div_add_page] at hv
            refine hputs.held_eq ?_
            rintro (ht | ⟨-, hat, -⟩)
            · exact absurd ht.1 (lt_irrefl 0)
            · have : v = va / PAGESIZE := hat
              omega
          have hn' : 0 < n := by
            by_contra hzero
            obtain rfl : n = 0 := by omega
            omega
          have halign' : (va + PAGESIZE) % PAGESIZE = 0 := by rw [Nat.add_mod_right]; exact halign
          obtain ⟨ok, m', heq', hkeeps', hputs', hdone', hcount'⟩ := ih halign'
            (by rw [Nat.succ_mul] at hfuel; omega) hn' hkeeps.shape
            (fun x hx => hfree x (hsub x hx))
            fun v hv hvend => by
              rw [hlater v hv]
              exact hslot v (by rw [div_add_page] at hv; omega) hvend
          refine ⟨ok, m', heq', ⟨hkeeps'.shape, hkeeps'.byte.trans hkeeps.byte, hkeeps'.entry.trans hkeeps.entry⟩,
            ?_, ?_, ?_⟩
          · refine (hputs.mono fun s o hp => hp.mono (fun x hx => ?_) s o).trans
              (hputs'.mono fun s o hp => hp.mono (fun x hx => ?_) s o)
            · rw [hx]
              exact ⟨le_rfl, by rw [hpage]; exact hlt⟩
            · rw [div_add_page] at hx
              exact ⟨by omega, hx.2⟩
          · intro hok v hv hvend
            by_cases hat : v = va / PAGESIZE
            · have hself : slots m'.pt (0, v) = slots m₁.pt (0, v) := by
                refine hputs'.held_eq ?_
                rintro (ht | ⟨-, ⟨hle, -⟩, -⟩)
                · exact absurd ht.1 (lt_irrefl 0)
                · rw [div_add_page] at hle
                  have : va / PAGESIZE + 1 ≤ v := hle
                  omega
              rw [← hm]
              refine ⟨pg, by rw [hm]; exact List.mem_cons_self, ?_⟩
              rw [hself, hat, hmapped]
            · obtain ⟨x, hx, hslot'⟩ := hdone' hok v (by rw [div_add_page]; omega) hvend
              rw [← hm]
              exact ⟨x, hsub x hx, hslot'⟩
          · intro k hk hlen
            have hpos : k ≠ 0 := by
              rintro rfl
              omega
            obtain ⟨k, rfl⟩ := Nat.exists_eq_succ_of_ne_zero hpos
            rw [List.length_cons] at hlen ⊢
            have hle := (hcount (by show 3 ≤ free.length; omega)).2
            have hle' : free.length ≤ m₁.free.length + 3 := hle
            obtain ⟨hok, hlen'⟩ := hcount' k (by rw [Nat.succ_mul] at hk; omega) (by omega)
            exact ⟨hok, by omega⟩
    · rename_i hge
      refine ⟨true, m, rfl, ⟨h, rfl, rfl⟩, .refl _, fun _ v hv hvend => ?_, fun k _ _ => ⟨rfl, by omega⟩⟩
      have : va ≤ v * PAGESIZE := by
        rw [← hpage]
        exact Nat.mul_le_mul_right _ hv
      omega

end Chickadee.Elf
