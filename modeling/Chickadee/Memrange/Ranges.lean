import Chickadee.Memrange.Set

/-!
# What `set` does to the types of addresses

`set` looks for the two entries between which the range is to go, splits the ranges at its ends where it must, and
makes one range of what is between. A split changes no type. The ranges that the last step leaves have different
types where they meet, as the range was first widened to what has its type already on either side.
-/

namespace Chickadee.Memrange

namespace memrangeset

variable {maxsize : ℕ} {s s' : memrangeset maxsize} {first last a addr i j k : ℕ} {type : ℤ}

/-- The ranges lie one behind the other. -/
structure Sorted (s : memrangeset maxsize) : Prop where
  zero : (s.r_ 0).addr_ = 0
  step : ∀ i < s.n_, (s.r_ i).addr_ < (s.r_ (i + 1)).addr_

/-- `a` is in range `k`. -/
def In (s : memrangeset maxsize) (k a : ℕ) : Prop :=
  k < s.n_ ∧ (s.r_ k).addr_ ≤ a ∧ a < (s.r_ (k + 1)).addr_

theorem validate.sorted (hv : s.validate) : s.Sorted := ⟨hv.2.1, fun i hi => (hv.2.2 i hi).1⟩

theorem validate.differs (hv : s.validate) (h0 : 0 < k) (hk : k < s.n_) : (s.r_ k).type_ ≠ (s.r_ (k - 1)).type_ :=
  (hv.2.2 k hk).2.resolve_left h0.ne'

theorem Sorted.lt (h : s.Sorted) (hij : i < j) (hj : j ≤ s.n_) : (s.r_ i).addr_ < (s.r_ j).addr_ := by
  induction j with
  | zero => omega
  | succ j ih =>
    have hstep := h.step j hj
    rcases Nat.lt_succ_iff_lt_or_eq.mp hij with hlt | rfl
    · exact (ih hlt (by omega)).trans hstep
    · exact hstep

theorem Sorted.le (h : s.Sorted) (hij : i ≤ j) (hj : j ≤ s.n_) : (s.r_ i).addr_ ≤ (s.r_ j).addr_ := by
  rcases hij.lt_or_eq with hlt | rfl
  · exact (h.lt hlt hj).le
  · exact le_rfl

/-! ## `find` and `type` -/

/-- The loop of `find` stops at the last entry that is not behind the address. -/
theorem findLoop_spec (addr : ℕ) (hi : i ≤ s.n_) (ha : (s.r_ i).addr_ ≤ addr) :
    i ≤ s.findLoop addr i ∧ s.findLoop addr i ≤ s.n_ ∧ (s.r_ (s.findLoop addr i)).addr_ ≤ addr ∧
      (s.findLoop addr i < s.n_ → addr < (s.r_ (s.findLoop addr i + 1)).addr_) := by
  induction i using findLoop.induct s addr with
  | case1 i hc ih =>
    rw [findLoop, if_pos hc]
    obtain ⟨hle, hrest⟩ := ih hc.1 hc.2
    exact ⟨by omega, hrest⟩
  | case2 i hc =>
    rw [findLoop, if_neg hc]
    exact ⟨le_rfl, hi, ha, fun hlt => by omega⟩

theorem Sorted.in_unique (h : s.Sorted) (hi : s.In i a) (hj : s.In j a) : i = j := by
  obtain ⟨hin, hia, hai⟩ := hi
  obtain ⟨hjn, hja, haj⟩ := hj
  by_contra hne
  rcases Nat.lt_or_gt_of_ne hne with hlt | hlt
  · have := h.le (i := i + 1) (j := j) hlt hjn.le
    omega
  · have := h.le (i := j + 1) (j := i) hlt hin.le
    omega

theorem Sorted.exists_in (h : s.Sorted) (ha : a < s.limit) : ∃ k, s.In k a ∧ s.find a = k := by
  obtain ⟨-, hn, hle, hlt⟩ := findLoop_spec a (Nat.zero_le s.n_) (h.zero.trans_le (Nat.zero_le a))
  have hfn : s.findLoop a 0 < s.n_ := by
    refine lt_of_le_of_ne hn fun he => ?_
    rw [he] at hle
    unfold limit at ha
    omega
  exact ⟨_, ⟨hfn, hle, hlt hfn⟩, rfl⟩

/-- **`type(a)` is the type of the range that `a` is in.** -/
theorem Sorted.type_eq (h : s.Sorted) (hk : s.In k a) : s.type a = some (s.r_ k).type_ := by
  have ha : a < s.limit := lt_of_lt_of_le hk.2.2 (h.le hk.1 le_rfl)
  obtain ⟨k', hk', hfind⟩ := h.exists_in ha
  obtain rfl := h.in_unique hk hk'
  unfold memrangeset.type
  rw [hfind]
  exact if_pos hk.1.ne

/-! ## `split` -/

/-- What `split` makes of the records. -/
theorem split_eq (hn : s.n_ + 1 ≤ maxsize) (hi : i < s.n_) (hlo : (s.r_ i).addr_ < addr)
    (hhi : addr < (s.r_ (i + 1)).addr_) :
    ∃ s', s.split i addr = some s' ∧ s'.n_ = s.n_ + 1 ∧ (∀ k ≤ i, s'.r_ k = s.r_ k) ∧
      s'.r_ (i + 1) = ⟨addr, (s.r_ i).type_⟩ ∧ ∀ k, i < k → k ≤ s.n_ → s'.r_ (k + 1) = s.r_ k := by
  refine ⟨_, if_pos ⟨⟨hi, hn⟩, hlo, hhi⟩, rfl, fun k hk => ?_, ?_, fun k hik hk => ?_⟩
  · simp [memmove, Function.update_of_ne (show k ≠ i + 1 by omega), show ¬i + 2 ≤ k by omega]
  · simp [memmove]
  · simp only [memmove, Function.update_of_ne (show k + 1 ≠ i + 1 by omega)]
    rw [if_pos (by omega)]
    congr 1
    omega

theorem Sorted.split (h : s.Sorted) (hn : s'.n_ = s.n_ + 1) (hi : i < s.n_) (hlo : (s.r_ i).addr_ < addr)
    (hhi : addr < (s.r_ (i + 1)).addr_) (hbelow : ∀ k ≤ i, s'.r_ k = s.r_ k)
    (hat : s'.r_ (i + 1) = ⟨addr, (s.r_ i).type_⟩) (habove : ∀ k, i < k → k ≤ s.n_ → s'.r_ (k + 1) = s.r_ k) :
    s'.Sorted ∧ s'.limit = s.limit ∧ ∀ a < s.limit, s'.type a = s.type a := by
  have hsorted : s'.Sorted := by
    refine ⟨by rw [hbelow 0 (Nat.zero_le i), h.zero], fun k hk => ?_⟩
    rcases Nat.lt_trichotomy k i with hki | rfl | hki
    · rw [hbelow k hki.le, hbelow (k + 1) hki]
      exact h.step k (by omega)
    · rw [hbelow k le_rfl, hat]
      exact hlo
    · by_cases hk1 : k = i + 1
      · rw [hk1, hat, habove (i + 1) (by omega) (by omega)]
        exact hhi
      · obtain ⟨k, rfl⟩ : ∃ m, k = m + 1 := ⟨k - 1, by omega⟩
        rw [habove k (by omega) (by omega), habove (k + 1) (by omega) (by omega)]
        exact h.step k (by omega)
  have hlimit : s'.limit = s.limit := by
    unfold limit
    rw [hn, habove s.n_ hi le_rfl]
  refine ⟨hsorted, hlimit, fun a ha => ?_⟩
  obtain ⟨k, hk, -⟩ := h.exists_in ha
  rw [h.type_eq hk]
  obtain ⟨hkn, hka, hak⟩ := hk
  rcases Nat.lt_trichotomy k i with hki | rfl | hki
  · rw [hsorted.type_eq (k := k) ⟨by omega, by rwa [hbelow k hki.le], by rwa [hbelow (k + 1) hki]⟩, hbelow k hki.le]
  · by_cases ha' : a < addr
    · rw [hsorted.type_eq (k := k) ⟨by omega, by rwa [hbelow k le_rfl], by rwa [hat]⟩, hbelow k le_rfl]
    · rw [hsorted.type_eq (k := k + 1) ⟨by omega, by rw [hat]; exact not_lt.mp ha', by rwa [habove (k + 1) (by omega) hkn]⟩, hat]
  · have hk' : s'.r_ (k + 1) = s.r_ k := habove k hki hkn.le
    rw [hsorted.type_eq (k := k + 1) ⟨by omega, by rwa [hk'], by rwa [habove (k + 1) (by omega) hkn]⟩, hk']

/-! ## `assign` -/

/-- What the end of `set` finds: entries at both ends of the range, whose neighbours have other types. -/
structure Cut (s : memrangeset maxsize) (first last : ℕ) (type : ℤ) (i j : ℕ) : Prop where
  sorted : s.Sorted
  le_max : s.n_ ≤ maxsize
  lt : i < j
  le : j ≤ s.n_
  start : (s.r_ i).addr_ = first
  stop : (s.r_ j).addr_ = last
  left : i = 0 ∨ (s.r_ (i - 1)).type_ ≠ type
  right : j = s.n_ ∨ (s.r_ j).type_ ≠ type
  differs : ∀ k, 0 < k → k < s.n_ → k < i ∨ j < k → (s.r_ k).type_ ≠ (s.r_ (k - 1)).type_

/-- The records after `assign`. -/
theorem Cut.assign_eq (h : s.Cut first last type i j) :
    ∃ s', s.assign first last type i j = some (true, s') ∧ s'.n_ = s.n_ - (j - (i + 1)) ∧
      (∀ k < i, s'.r_ k = s.r_ k) ∧ s'.r_ i = ⟨first, type⟩ ∧
      ∀ k, j ≤ k → k ≤ s.n_ → s'.r_ (k - (j - (i + 1))) = s.r_ k := by
  have hij := h.lt
  unfold assign
  rw [if_pos ⟨h.start, h.stop⟩]
  by_cases hgap : i + 1 < j
  · refine ⟨_, if_pos hgap, rfl, fun k hk => ?_, ?_, fun k hjk hk => ?_⟩
    · simp [memmove, setType, show ¬i + 1 ≤ k by omega, hk.ne]
    · simp [memmove, setType, h.start]
    · have hsrc : j + (k - (j - (i + 1)) - (i + 1)) = k := by omega
      have hin : i + 1 ≤ k - (j - (i + 1)) ∧ k - (j - (i + 1)) < i + 1 + (s.n_ + 1 - j) := by omega
      simp [memmove, setType, hin, hsrc, show k ≠ i by omega]
  · have hgap0 : j - (i + 1) = 0 := by omega
    refine ⟨_, if_neg hgap, by simp [setType, hgap0], fun k hk => ?_, ?_, fun k hjk hk => ?_⟩
    · simp [setType, hk.ne]
    · simp [setType, h.start]
    · simp [setType, hgap0, show k ≠ i by omega]

/-- **The range between two entries gets its type, and no other address does.** -/
theorem Cut.assign (h : s.Cut first last type i j) :
    ∃ s', s.assign first last type i j = some (true, s') ∧ s'.validate ∧ s'.limit = s.limit ∧
      ∀ a < s.limit, s'.type a = if first ≤ a ∧ a < last then some type else s.type a := by
  obtain ⟨s', hcode, hn, hbelow, hat, habove⟩ := h.assign_eq
  obtain ⟨hs, hmax, hij, hjn, rfl, rfl, hleft, hright, hdiffers⟩ := h
  set d := j - (i + 1) with hd
  have hnext : s'.r_ (i + 1) = s.r_ j := by
    have := habove j le_rfl hjn
    rwa [show j - d = i + 1 by omega] at this
  have hup : ∀ k, i < k → k ≤ s'.n_ → s'.r_ k = s.r_ (k + d) := by
    intro k hik hk
    have := habove (k + d) (by omega) (by omega)
    rwa [Nat.add_sub_cancel] at this
  have hsorted : s'.Sorted := by
    constructor
    · rcases Nat.eq_zero_or_pos i with rfl | hpos
      · rw [hat]
        exact hs.zero
      · rw [hbelow 0 hpos, hs.zero]
    · intro k hk
      rcases Nat.lt_trichotomy k i with hki | rfl | hki
      · rw [hbelow k hki]
        by_cases hk1 : k + 1 = i
        · rw [hk1, hat]
          exact hs.lt hki (by omega)
        · rw [hbelow (k + 1) (by omega)]
          exact hs.step k (by omega)
      · rw [hat, hnext]
        exact hs.lt hij hjn
      · rw [hup k hki (by omega), hup (k + 1) (by omega) hk, show k + 1 + d = k + d + 1 by omega]
        exact hs.step _ (by omega)
  have hlimit : s'.limit = s.limit := by
    unfold limit
    rw [hup s'.n_ (by omega) le_rfl, show s'.n_ + d = s.n_ by omega]
  refine ⟨s', hcode, ⟨⟨by omega, by omega⟩, hsorted.zero, fun k hk => ⟨hsorted.step k hk, ?_⟩⟩, hlimit, ?_⟩
  · -- neighbours have different types
    rcases Nat.eq_zero_or_pos k with rfl | hpos
    · exact Or.inl rfl
    refine Or.inr ?_
    rcases Nat.lt_trichotomy k i with hki | rfl | hki
    · rw [hbelow k hki, hbelow (k - 1) (by omega)]
      exact hdiffers k hpos (by omega) (Or.inl hki)
    · rw [hat, hbelow (k - 1) (by omega)]
      exact (hleft.resolve_left (by omega)).symm
    · rw [hup k hki hk.le]
      by_cases hk1 : k = i + 1
      · subst hk1
        rw [Nat.add_sub_cancel, hat, show i + 1 + d = j by omega]
        exact hright.resolve_left (by omega)
      · rw [hup (k - 1) (by omega) (by omega), show k - 1 + d = k + d - 1 by omega]
        exact hdiffers (k + d) (by omega) (by omega) (Or.inr (by omega))
  · intro a ha
    obtain ⟨k, hk, -⟩ := hs.exists_in ha
    rw [hs.type_eq hk]
    obtain ⟨hkn, hka, hak⟩ := hk
    by_cases hki : k < i
    · have hlt : a < (s.r_ i).addr_ := lt_of_lt_of_le hak (hs.le hki (by omega))
      rw [if_neg (by omega), hsorted.type_eq (k := k) ⟨by omega, by rwa [hbelow k hki], ?_⟩, hbelow k hki]
      by_cases hk1 : k + 1 = i
      · rw [hk1, hat]
        exact hlt
      · rwa [hbelow (k + 1) (by omega)]
    by_cases hkj : k < j
    · have hia : (s.r_ i).addr_ ≤ a := (hs.le (by omega) hkn.le).trans hka
      have haj : a < (s.r_ j).addr_ := lt_of_lt_of_le hak (hs.le hkj hjn)
      rw [if_pos ⟨hia, haj⟩, hsorted.type_eq (k := i) ⟨by omega, by rwa [hat], by rwa [hnext]⟩, hat]
    · have hja : (s.r_ j).addr_ ≤ a := (hs.le (by omega) hkn.le).trans hka
      have hsame := habove k (by omega) hkn.le
      have hsame' := habove (k + 1) (by omega) hkn
      rw [if_neg (by omega), hsorted.type_eq (k := k - d) ⟨by omega, by rwa [hsame], ?_⟩, hsame]
      rwa [show k - d + 1 = k + 1 - d by omega, hsame']

end memrangeset

end Chickadee.Memrange
