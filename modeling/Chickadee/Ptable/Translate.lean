import Chickadee.Ptable.Vmiter

/-!
# What a `vmiter` reads

`pa()` and `perm()` where a `vmiter` stands, against the walk from the root.
-/

namespace Chickadee.Ptable

open Vm (PAGESIZE VA_LOWMAX VA_LOWEND VA_HIGHMIN pagesize va_is_canonical)

variable {m m' : Mem} {pt va va' level t : ℕ}

/-- Whether the walk from a table meets no uninitialized memory. -/
def initialised (m : Mem) (va : ℕ) : ℕ → ℕ → Bool
  | 0, t => Vmiter.inMemory (m t (pageindex va 0))
  | level + 1, t =>
    match subtable (m t (pageindex va (level + 1))) with
    | some u => decide (u < HIGHMEM_SIZE) && initialised m va level u
    | none => Vmiter.inMemory (m t (pageindex va (level + 1)))

/-! ## The walk, step by step -/

theorem walk_table {u : ℕ} (h : subtable (m t (pageindex va (level + 1))) = some u) :
    walk m va (level + 1) t = (walk m va level u).map fun r => (r.1, m t (pageindex va (level + 1)) &&& r.2) := by
  simp only [walk, h]

theorem walk_leaf (h : level = 0 ∨ subtable (m t (pageindex va level)) = none) : walk m va level t
    = if m t (pageindex va level) &&& PTE_P = PTE_P then
        some (framePa va level (m t (pageindex va level)), m t (pageindex va level))
      else none := by
  cases level with
  | zero => rfl
  | succ level => simp only [walk, h.resolve_left (by omega)]

/-- The walk depends on the entries that it meets. -/
theorem walk_congr (hl : level ≤ 3) (ht : tableAt m pt va level = some t) (hm : ∀ l u, l ≤ level →
    tableAt m pt va l = some u → m' u (pageindex va l) = m u (pageindex va l)) :
    walk m' va level t = walk m va level t := by
  induction level generalizing t with
  | zero => simp only [walk, hm 0 t le_rfl ht]
  | succ level ih =>
    have hentry := hm (level + 1) t le_rfl ht
    cases hsub : subtable (m t (pageindex va (level + 1))) with
    | none => rw [walk_leaf (.inr hsub), walk_leaf (.inr (by rw [hentry, hsub])), hentry]
    | some u =>
      have hu : tableAt m pt va level = some u := by rw [tableAt_of_succ (by omega) ht, hsub]
      rw [walk_table hsub, walk_table (by rw [hentry, hsub]), hentry, ih (by omega) hu]
      exact fun l v hlt hv => hm l v (by omega) hv

/-- A walk that fails below a table fails from the root. -/
theorem walk_root_eq_none (hl : level ≤ 3) (ht : tableAt m pt va level = some t) (hw : walk m va level t = none) :
    walk m va 3 pt = none := by
  obtain ⟨k, hk⟩ : ∃ k, level + k = 3 := ⟨3 - level, by omega⟩
  induction k generalizing level t with
  | zero =>
    obtain rfl : level = 3 := by omega
    cases ht
    exact hw
  | succ k ih =>
    obtain ⟨u, hu, hsub⟩ := exists_tableAt_succ (by omega) ht
    refine ih (by omega) hu ?_ (by omega)
    rw [walk_table hsub, hw]
    rfl

theorem translate_of_canonical (hva : va_is_canonical va = true) :
    translate m pt va = (walk m va 3 pt).map fun r => (r.1, r.2 &&& PTE_PWU) := if_pos hva

theorem translate_of_not_canonical (hva : va_is_canonical va = false) : translate m pt va = none :=
  if_neg (by simp [hva])

namespace Vmiter

variable {it : Vmiter} {perm : BitVec 64}

theorem perm_eq (m : Mem) (it : Vmiter) : it.perm m
    = if m.read it.pep_ &&& it.perm_ &&& PTE_P = PTE_P then m.read it.pep_ &&& it.perm_ else 0#64 := by
  have hperm : it.perm m = m.read it.pep_ &&& it.perm_ &&& -(m.read it.pep_ &&& it.perm_ &&& PTE_P) := rfl
  rw [hperm]
  rcases and_pte_p (m.read it.pep_ &&& it.perm_) with h | h
  · rw [h, if_neg (by decide), BitVec.neg_zero, BitVec.and_zero]
  · have hones : -PTE_P = BitVec.allOnes 64 := by decide
    rw [h, if_pos rfl, hones, BitVec.and_allOnes]

theorem perm_of_absent (h : m.read it.pep_ &&& PTE_P = 0#64) : it.perm m = 0#64 := by
  rw [perm_eq, if_neg]
  rw [BitVec.and_assoc, BitVec.and_comm it.perm_, ← BitVec.and_assoc, h, BitVec.zero_and]
  decide

theorem perm_of_present (h : m.read it.pep_ &&& PTE_P = PTE_P) (hperm : it.perm_ &&& PTE_P = PTE_P) :
    it.perm m = m.read it.pep_ &&& it.perm_ := by
  rw [perm_eq, if_pos]
  rw [BitVec.and_assoc, hperm, h]

theorem pa_of_present (h : m.read it.pep_ &&& PTE_P = PTE_P) :
    it.pa m = framePa it.va_ it.level_ (m.read it.pep_) := by
  have hmask : PTE_PAMASK &&& ~~~0x1000#64 = PTE_PS_PAMASK := by decide
  have hpa : it.pa m = (if it.level_ > 0 then m.read it.pep_ &&& PTE_PAMASK &&& ~~~0x1000#64
      else m.read it.pep_ &&& PTE_PAMASK).toNat + it.va_ % pagesize it.level_ :=
    if_pos (by rw [h]; decide)
  rw [hpa]
  unfold framePa
  by_cases hlevel : it.level_ = 0
  · rw [hlevel, if_neg (by omega), if_pos rfl]
  · rw [if_pos (by omega), if_neg hlevel, BitVec.and_assoc, hmask]

theorem pa_of_absent (h : m.read it.pep_ &&& PTE_P = 0#64) : it.pa m = 2 ^ 64 - 1 :=
  if_neg (by simp [h])

/-- An entry above leaves of the permissions what the intersection with it leaves. -/
theorem and_above (perm e r : BitVec 64) :
    perm &&& (e ||| ~~~PTE_PWU) &&& r &&& PTE_PWU = perm &&& (e &&& r) &&& PTE_PWU := by
  ext i hi
  simp only [BitVec.getElem_and, BitVec.getElem_or, BitVec.getElem_not]
  cases perm[i] <;> cases e[i] <;> cases r[i] <;> cases PTE_PWU[i] <;> rfl

/-- `perm_` keeps its `PTE_P`: the entries above are present. -/
theorem above_present {e : BitVec 64} {u : ℕ} (hperm : perm &&& PTE_P = PTE_P) (hsub : subtable e = some u) :
    perm &&& (e ||| ~~~PTE_PWU) &&& PTE_P = PTE_P := by
  have hand : (e ||| ~~~PTE_PWU) &&& PTE_P = e &&& PTE_P := by
    rw [BitVec.and_or_distrib_right]
    exact BitVec.or_zero
  rw [BitVec.and_assoc, hand, pte_p_of_subtable hsub, hperm]

/-- What is read where the loop stops is what the walk gives. -/
theorem downLoop_walk (hperm : perm &&& PTE_P = PTE_P)
    (h : downLoop m pt va level (some (t, pageindex va level)) perm = some it) :
    (walk m va level t).map (fun r => (r.1, perm &&& r.2 &&& PTE_PWU))
      = if m.read it.pep_ &&& PTE_P = PTE_P then some (it.pa m, it.perm m &&& PTE_PWU) else none := by
  have hleaf : ∀ {level t : ℕ} {perm : BitVec 64}, perm &&& PTE_P = PTE_P →
      (level = 0 ∨ subtable (m t (pageindex va level)) = none) →
      downLoop m pt va level (some (t, pageindex va level)) perm = some it →
      (walk m va level t).map (fun r => (r.1, perm &&& r.2 &&& PTE_PWU))
        = if m.read it.pep_ &&& PTE_P = PTE_P then some (it.pa m, it.perm m &&& PTE_PWU) else none := by
    intro level t perm hperm hstop h
    rw [downLoop_leaf hstop] at h
    cases h
    rw [walk_leaf hstop]
    rw [read_some]
    by_cases hp : m t (pageindex va level) &&& PTE_P = PTE_P
    · rw [if_pos hp, if_pos hp, pa_of_present (by exact hp), perm_of_present (by exact hp) hperm, Option.map_some,
        BitVec.and_comm perm]
      rfl
    · rw [if_neg hp, if_neg hp]
      rfl
  induction level generalizing t perm with
  | zero => exact hleaf hperm (.inl rfl) h
  | succ level ih =>
    cases hsub : subtable (m t (pageindex va (level + 1))) with
    | none => exact hleaf hperm (.inr hsub) h
    | some u =>
      simp only [downLoop, read_some, hsub] at h
      split at h
      · rw [walk_table hsub, Option.map_map, ← ih (above_present hperm hsub) h]
        simp only [Function.comp_def, and_above]
      · cases h

/-- **The page and the permissions that a new `vmiter` reads are those of the walk.** -/
theorem translate_eq (h : seek m pt va = some it) : translate m pt va
    = if m.read it.pep_ &&& PTE_P = PTE_P then some (it.pa m, it.perm m &&& PTE_PWU) else none := by
  rcases seek_cases h with ⟨hva, t, hs⟩ | ⟨hva, rfl⟩
  · rw [seek_of_canonical hva] at h
    have hones : initial_perm &&& PTE_PWU = PTE_PWU := by decide
    rw [translate_of_canonical hva, ← downLoop_walk (by decide) h]
    congr 1
    funext r
    rw [BitVec.and_comm initial_perm, BitVec.and_assoc, hones]
  · rw [translate_of_not_canonical hva]
    exact (if_neg (by simp)).symm

theorem pa_eq (h : seek m pt va = some it) : it.pa m = (translate m pt va).elim (2 ^ 64 - 1) Prod.fst := by
  rw [translate_eq h]
  rcases and_pte_p (m.read it.pep_) with hp | hp
  · rw [hp, if_neg (by decide), pa_of_absent hp]
    rfl
  · rw [if_pos hp]
    rfl

theorem perm_pwu (h : seek m pt va = some it) :
    it.perm m &&& PTE_PWU = (translate m pt va).elim 0#64 Prod.snd := by
  rw [translate_eq h]
  rcases and_pte_p (m.read it.pep_) with hp | hp
  · rw [hp, if_neg (by decide), perm_of_absent hp]
    rfl
  · rw [if_pos hp]
    rfl

/-! ## Searches that panic -/

theorem isSome_downLoop : ((downLoop m pt va level (some (t, pageindex va level)) perm).bind fun it =>
    if inMemory (m.read it.pep_) then some it else none).isSome = initialised m va level t := by
  induction level generalizing t perm with
  | zero =>
    simp only [downLoop, Option.bind_some, read_some, initialised]
    by_cases hmem : inMemory (m t (pageindex va 0)) = true
    · simp [hmem]
    · simp [hmem]
  | succ level ih =>
    simp only [downLoop, read_some, initialised]
    cases hsub : subtable (m t (pageindex va (level + 1))) with
    | none =>
      simp only [Option.bind_some, read_some]
      by_cases hmem : inMemory (m t (pageindex va (level + 1))) = true
      · simp [hmem]
      · simp [hmem]
    | some u =>
      by_cases hu : u < HIGHMEM_SIZE
      · simp only [hu, if_true, decide_true, Bool.true_and]
        exact ih
      · simp [hu]

/-- A search panics at the addresses whose walk meets uninitialized memory, and at no other. -/
theorem start_isSome_iff :
    (start m pt va).isSome = true ↔ (va_is_canonical va = true → initialised m va 3 pt = true) := by
  rw [start_eq]
  cases hva : va_is_canonical va with
  | false => simp [seek_of_not_canonical hva, inMemory]
  | true =>
    rw [seek_of_canonical hva, isSome_downLoop]
    simp

/-! ## Steps to the next page and to the next range -/

/-- Where the entry is not present, nothing in its region is. -/
theorem translate_of_absent (h : seek m pt va = some it) (habsent : m.read it.pep_ &&& PTE_P = 0#64)
    (hregion : va' / pagesize it.level_ = va / pagesize it.level_) : translate m pt va' = none := by
  rw [translate_eq (seek_region h hregion)]
  exact if_neg (by rw [habsent]; decide)

theorem downLoop_present (hperm : perm &&& PTE_P = PTE_P) {pep : Option (ℕ × ℕ)}
    (h : downLoop m pt va level pep perm = some it) : it.perm_ &&& PTE_P = PTE_P := by
  induction level generalizing pep perm with
  | zero =>
    cases h
    exact hperm
  | succ level ih =>
    cases hsub : subtable (m.read pep) with
    | none =>
      rw [downLoop_leaf (.inr hsub)] at h
      cases h
      exact hperm
    | some u =>
      simp only [downLoop, hsub] at h
      split at h
      · exact ih (above_present hperm hsub) h
      · cases h

/-- `perm()` is zero where the entry is not present, and only there. -/
theorem perm_eq_zero_iff (h : seek m pt va = some it) : it.perm m = 0#64 ↔ m.read it.pep_ &&& PTE_P = 0#64 := by
  refine ⟨fun hperm => ?_, perm_of_absent⟩
  rcases and_pte_p (m.read it.pep_) with hp | hp
  · exact hp
  · rcases seek_cases h with ⟨hva, -⟩ | ⟨-, rfl⟩
    · rw [seek_of_canonical hva] at h
      have habove := downLoop_present (by decide) h
      have hand : m.read it.pep_ &&& it.perm_ &&& PTE_P = PTE_P := by rw [BitVec.and_assoc, habove, hp]
      rw [← perm_of_present hp habove, hperm] at hand
      exact absurd hand (by decide)
    · rw [read_none] at hp
      exact absurd hp (by decide)

theorem div_eq_of_between {x y n : ℕ} (hxy : x ≤ y) (hlt : y < (x / n + 1) * n) : y / n = x / n :=
  Nat.div_eq_of_lt_le (le_trans (Nat.div_mul_le_self x n) hxy) hlt

/-- **`next()` skips no present page.** -/
theorem next_skips (h : seek m pt va = some it) (hpage : va / PAGESIZE < va' / PAGESIZE)
    (hlt : va' < (va / pagesize (it.nextLevel m) + 1) * pagesize (it.nextLevel m)) : translate m pt va' = none := by
  have hle : va ≤ va' := by
    by_contra hva
    have hdiv : va' / PAGESIZE ≤ va / PAGESIZE := Nat.div_le_div_right (by omega)
    omega
  have hregion := div_eq_of_between hle hlt
  unfold nextLevel at hregion
  split at hregion
  · rename_i hskip
    exact translate_of_absent h ((perm_eq_zero_iff h).1 hskip.2) hregion
  · rw [Vm.pagesize_zero] at hregion
    omega

/-- **`next_range()` leaves nothing behind but the rest of the range**, which has the entry that it stands on. -/
theorem next_range_skips (h : seek m pt va = some it) (hle : va ≤ va')
    (hlt : va' < (va / pagesize it.level_ + 1) * pagesize it.level_) :
    seek m pt va' = some { it with va_ := va' } :=
  seek_region h (div_eq_of_between hle hlt)

end Vmiter

end Chickadee.Ptable
