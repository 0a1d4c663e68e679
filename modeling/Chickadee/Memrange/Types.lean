import Chickadee.Memrange.Ranges

/-!
# `set` from its bounds to its result
-/

namespace Chickadee.Memrange

namespace memrangeset

variable {maxsize : ℕ} {s s' : memrangeset maxsize} {first last a addr i j k : ℕ} {type : ℤ}

/-- The bounds that `set` has found: `first` is in range `i` and `last` in range `j`, or at the limit. -/
structure Bounds (s : memrangeset maxsize) (first last : ℕ) (type : ℤ) (i j : ℕ) : Prop where
  sorted : s.Sorted
  le_max : s.n_ ≤ maxsize
  lt : first < last
  le : i ≤ j
  lt_n : i < s.n_
  le_n : j ≤ s.n_
  start : (s.r_ i).addr_ ≤ first ∧ first < (s.r_ (i + 1)).addr_
  stop : (s.r_ j).addr_ ≤ last ∧ (last = (s.r_ j).addr_ ∨ j < s.n_ ∧ last < (s.r_ (j + 1)).addr_)
  left : first = (s.r_ i).addr_ → i = 0 ∨ (s.r_ (i - 1)).type_ ≠ type
  inside : first ≠ (s.r_ i).addr_ → (s.r_ i).type_ ≠ type
  right : j = s.n_ ∨ (s.r_ j).type_ ≠ type
  differs : ∀ k, 0 < k → k < s.n_ → (k = i → first ≠ (s.r_ i).addr_) → (s.r_ k).type_ ≠ (s.r_ (k - 1)).type_

/-- Nothing is to be split. -/
theorem Bounds.cut (h : s.Bounds first last type i j) (hfirst : first = (s.r_ i).addr_)
    (hlast : last = (s.r_ j).addr_) : s.Cut first last type i j := by
  have hij : i < j := by
    refine lt_of_le_of_ne h.le ?_
    rintro rfl
    have := h.lt
    omega
  exact ⟨h.sorted, h.le_max, hij, h.le_n, hfirst.symm, hlast.symm, h.left hfirst, h.right,
    fun k h0 hk hor => h.differs k h0 hk fun hki => by omega⟩

/-- After the split at the left the range starts at an entry. -/
theorem Bounds.split_left (h : s.Bounds first last type i j) (hne : first ≠ (s.r_ i).addr_) (hn : s.n_ + 1 ≤ maxsize) :
    ∃ s', s.split i first = some s' ∧ s'.Bounds first last type (i + 1) (j + 1) ∧ first = (s'.r_ (i + 1)).addr_ ∧
      (last = (s'.r_ (j + 1)).addr_ ↔ last = (s.r_ j).addr_) ∧ s'.n_ = s.n_ + 1 ∧ s'.limit = s.limit ∧
      ∀ a < s.limit, s'.type a = s.type a := by
  obtain ⟨hs, hmax, hlt, hij, hin, hjn, ⟨hlo, hhi⟩, ⟨hjlo, hjhi⟩, hleft, hinside, hright, hdiffers⟩ := h
  have hlo' : (s.r_ i).addr_ < first := lt_of_le_of_ne hlo hne.symm
  obtain ⟨s', hcode, hn', hbelow, hat, habove⟩ := split_eq hn hin hlo' hhi
  obtain ⟨hsorted, hlimit, htype⟩ := hs.split hn' hin hlo' hhi hbelow hat habove
  have hi1 : s'.r_ (i + 1 + 1) = s.r_ (i + 1) := habove (i + 1) (by omega) hin
  refine ⟨s', hcode, ⟨hsorted, by omega, hlt, by omega, by omega, by omega, ?_, ?_, ?_, ?_, ?_, ?_⟩, by rw [hat], ?_,
    hn', hlimit, htype⟩
  · rw [hat, hi1]
    exact ⟨le_rfl, hhi⟩
  · rcases hij.lt_or_eq with hlt' | rfl
    · rw [habove j hlt' hjn]
      refine ⟨hjlo, hjhi.imp_right fun hj => ⟨by omega, ?_⟩⟩
      rw [habove (j + 1) (by omega) hj.1]
      exact hj.2
    · rw [hat, hi1]
      refine ⟨hlt.le, Or.inr ⟨by omega, ?_⟩⟩
      rcases hjhi with heq | hj
      · omega
      · exact hj.2
  · intro _
    rw [Nat.add_sub_cancel, hbelow i le_rfl]
    exact Or.inr (hinside hne)
  · intro hne'
    rw [hat] at hne'
    exact absurd rfl hne'
  · rcases hij.lt_or_eq with hlt' | rfl
    · rw [habove j hlt' hjn, hn']
      exact hright.imp_left fun hj => by omega
    · rw [hat]
      exact Or.inr (hinside hne)
  · intro k h0 hk hki
    rcases Nat.lt_trichotomy k (i + 1) with hlt' | rfl | hlt'
    · rw [hbelow k (by omega), hbelow (k - 1) (by omega)]
      exact hdiffers k h0 (by omega) fun _ => hne
    · rw [hat] at hki
      exact absurd rfl (hki rfl)
    · obtain ⟨m, rfl⟩ : ∃ m, k = m + 1 := ⟨k - 1, by omega⟩
      have hold := hdiffers m (by omega) (by omega) fun _ => hne
      rw [habove m (by omega) (by omega), Nat.add_sub_cancel]
      by_cases hm : m = i + 1
      · rw [hm, hat]
        rwa [hm, Nat.add_sub_cancel] at hold
      · obtain ⟨m, rfl⟩ : ∃ l, m = l + 1 := ⟨m - 1, by omega⟩
        rwa [habove m (by omega) (by omega)]
  · rcases hij.lt_or_eq with hlt' | rfl
    · rw [habove j hlt' hjn]
    · rw [hat]
      dsimp only
      constructor <;> intro heq <;> omega

/-- After the split at the right both ends of the range are at entries. -/
theorem Bounds.split_right (h : s.Bounds first last type i j) (hfirst : first = (s.r_ i).addr_)
    (hne : last ≠ (s.r_ j).addr_) (hn : s.n_ + 1 ≤ maxsize) :
    ∃ s', s.split j last = some s' ∧ s'.Cut first last type i (j + 1) ∧ s'.limit = s.limit ∧
      ∀ a < s.limit, s'.type a = s.type a := by
  obtain ⟨hs, hmax, hlt, hij, hin, hjn, -, ⟨hjlo, hjhi⟩, hleft, -, hright, hdiffers⟩ := h
  obtain ⟨hjn', hjhi⟩ := hjhi.resolve_left hne
  have hlo' : (s.r_ j).addr_ < last := lt_of_le_of_ne hjlo hne.symm
  obtain ⟨s', hcode, hn', hbelow, hat, habove⟩ := split_eq hn hjn' hlo' hjhi
  obtain ⟨hsorted, hlimit, htype⟩ := hs.split hn' hjn' hlo' hjhi hbelow hat habove
  refine ⟨s', hcode, ⟨hsorted, by omega, by omega, by omega, ?_, by rw [hat], ?_, ?_, ?_⟩, hlimit, htype⟩
  · rw [hbelow i hij, hfirst]
  · rw [hbelow (i - 1) (by omega)]
    exact hleft hfirst
  · rw [hat]
    exact Or.inr (hright.resolve_left hjn'.ne)
  · intro k h0 hk hor
    rcases hor with hki | hjk
    · rw [hbelow k (by omega), hbelow (k - 1) (by omega)]
      exact hdiffers k h0 (by omega) fun _ => by omega
    · obtain ⟨m, rfl⟩ : ∃ m, k = m + 1 := ⟨k - 1, by omega⟩
      have hold := hdiffers m (by omega) (by omega) fun _ => by omega
      rw [habove m (by omega) (by omega), Nat.add_sub_cancel]
      by_cases hm : m = j + 1
      · rw [hm, hat]
        rwa [hm, Nat.add_sub_cancel] at hold
      · obtain ⟨m, rfl⟩ : ∃ l, m = l + 1 := ⟨m - 1, by omega⟩
        rwa [habove m (by omega) (by omega)]

/-- `set` from its bounds on. -/
theorem Bounds.splitEnds (h : s.Bounds first last type i j) :
    ∃ ok s', s.splitEnds first last type i j = some (ok, s') ∧
      if ok then
        s'.validate ∧ s'.limit = s.limit ∧
          ∀ a < s.limit, s'.type a = if first ≤ a ∧ a < last then some type else s.type a
      else s' = s ∧ (first ≠ (s.r_ i).addr_ ∨ last ≠ (s.r_ j).addr_) := by
  unfold memrangeset.splitEnds
  by_cases hfull : s.n_ + (if first ≠ (s.r_ i).addr_ then 1 else 0) + (if last ≠ (s.r_ j).addr_ then 1 else 0) > maxsize
  · rw [if_pos hfull]
    refine ⟨false, s, rfl, rfl, ?_⟩
    by_contra hnone
    push Not at hnone
    have hmax := h.le_max
    simp [hnone.1, hnone.2] at hfull
    omega
  rw [if_neg hfull]
  by_cases hfirst : first = (s.r_ i).addr_
  · by_cases hlast : last = (s.r_ j).addr_
    · obtain ⟨s', hcode, hres⟩ := (h.cut hfirst hlast).assign
      exact ⟨true, s', by simpa [← hfirst, ← hlast] using hcode, hres⟩
    · obtain ⟨s₁, hsplit, hcut, hlimit, htype⟩ := h.split_right hfirst hlast (by simp [hfirst, hlast] at hfull; omega)
      obtain ⟨s', hcode, hv, hlim, hty⟩ := hcut.assign
      refine ⟨true, s', by simpa [← hfirst, hlast, hsplit] using hcode, hv, hlim.trans hlimit, fun a ha => ?_⟩
      rw [hty a (by rwa [hlimit]), htype a ha]
  · obtain ⟨s₁, hsplit, hb, hfirst₁, hlast₁, hn₁, hlimit, htype⟩ :=
      h.split_left hfirst (by simp [hfirst] at hfull; omega)
    by_cases hlast : last = (s.r_ j).addr_
    · obtain ⟨s', hcode, hv, hlim, hty⟩ := (hb.cut hfirst₁ (hlast₁.mpr hlast)).assign
      refine ⟨true, s', by simpa [hfirst, hsplit, ← hlast₁.mpr hlast] using hcode, hv, hlim.trans hlimit,
        fun a ha => ?_⟩
      rw [hty a (by rwa [hlimit]), htype a ha]
    · have hlast' : last ≠ (s₁.r_ (j + 1)).addr_ := fun he => hlast (hlast₁.mp he)
      obtain ⟨s₂, hsplit₂, hcut, hlimit₂, htype₂⟩ :=
        hb.split_right hfirst₁ hlast' (by simp [hfirst, hlast] at hfull; omega)
      obtain ⟨s', hcode, hv, hlim, hty⟩ := hcut.assign
      refine ⟨true, s', by simpa [hfirst, hsplit, hlast', hsplit₂] using hcode, hv,
        (hlim.trans hlimit₂).trans hlimit, fun a ha => ?_⟩
      rw [hty a (by rwa [hlimit₂, hlimit]), htype₂ a (by rwa [hlimit]), htype a ha]

/-! ## The bounds -/

/-- The first loop of `set` stops at the range of the address. -/
theorem lowerLoop_spec (hmax : s.n_ ≤ maxsize) (hlim : addr < s.limit) (hi : i < s.n_)
    (ha : (s.r_ i).addr_ ≤ addr) : ∃ k, s.lowerLoop addr i = some k ∧ s.In k addr := by
  induction i using lowerLoop.induct s addr with
  | case1 i hmax' hge ih =>
    rw [lowerLoop, if_pos hmax', if_pos hge]
    refine ih (lt_of_le_of_ne hi ?_) hge
    intro he
    rw [he] at hge
    exact absurd hlim (not_lt.mpr hge)
  | case2 i hmax' hlt =>
    rw [lowerLoop, if_pos hmax', if_neg hlt]
    exact ⟨i, rfl, hi, ha, not_le.mp hlt⟩
  | case3 i hmax' => omega

/-- The lower bound, once `set` has widened the range to the left: `first'` is where the new range starts. -/
structure Start (s : memrangeset maxsize) (first : ℕ) (type : ℤ) (i first' : ℕ) : Prop where
  lt_n : i < s.n_
  start : (s.r_ i).addr_ ≤ first' ∧ first' < (s.r_ (i + 1)).addr_
  le : first' ≤ first
  le_next : first ≤ (s.r_ (i + 1)).addr_
  left : first' = (s.r_ i).addr_ → i = 0 ∨ (s.r_ (i - 1)).type_ ≠ type
  inside : first' ≠ (s.r_ i).addr_ → (s.r_ i).type_ ≠ type
  wide : ∀ a, first' ≤ a → a < first → s.type a = some type

/-- What `set` has after it has widened the range that starts in range `i`. -/
theorem validate.start_of (hv : s.validate) (hi : i < s.n_) (hle : (s.r_ i).addr_ ≤ first)
    (hnext : first ≤ (s.r_ (i + 1)).addr_) (hin : first = (s.r_ (i + 1)).addr_ → (s.r_ i).type_ = type)
    (hleft : first = (s.r_ i).addr_ → i = 0 ∨ (s.r_ (i - 1)).type_ ≠ type) :
    s.Start first type i (if (s.r_ i).type_ = type then (s.r_ i).addr_ else first) := by
  have hstep := hv.sorted.step i hi
  by_cases htype : (s.r_ i).type_ = type
  · rw [if_pos htype]
    refine ⟨hi, ⟨le_rfl, hstep⟩, hle, hnext, fun _ => ?_, fun hne => absurd rfl hne, fun a hia ha => ?_⟩
    · rcases Nat.eq_zero_or_pos i with rfl | hpos
      · exact Or.inl rfl
      · exact Or.inr fun he => hv.differs hpos hi (htype.trans he.symm)
    · rw [hv.sorted.type_eq (k := i) ⟨hi, hia, by omega⟩, htype]
  · rw [if_neg htype]
    exact ⟨hi, ⟨hle, lt_of_le_of_ne hnext fun he => htype (hin he)⟩, le_rfl, hnext, hleft, fun _ => htype,
      fun a hle hlt => by omega⟩

theorem validate.start (type : ℤ) (hv : s.validate) (hk : s.In k first) :
    let i := if first = (s.r_ k).addr_ ∧ k > 0 ∧ (s.r_ (k - 1)).type_ = type then k - 1 else k
    s.Start first type i (if (s.r_ i).type_ = type then (s.r_ i).addr_ else first) := by
  obtain ⟨hkn, hka, hak⟩ := hk
  intro i
  by_cases hc : first = (s.r_ k).addr_ ∧ k > 0 ∧ (s.r_ (k - 1)).type_ = type
  · have hi : i = k - 1 := if_pos hc
    obtain ⟨hfirst, hpos, htype⟩ := hc
    have hik : i + 1 = k := by omega
    rw [← hi] at htype
    have hstep := hv.sorted.step i (by omega)
    rw [hik] at hstep
    refine hv.start_of (by omega) (by omega) (by rw [hik]; omega) (fun _ => htype) fun he => ?_
    omega
  · have hi : i = k := if_neg hc
    rw [hi]
    refine hv.start_of hkn hka hak.le (fun he => by omega) fun he => ?_
    rcases Nat.eq_zero_or_pos k with hzero | hpos
    · exact Or.inl hzero
    · exact Or.inr fun htype => hc ⟨he, hpos, htype⟩

/-- An entry moves up, but not up to the next. -/
theorem Sorted.setAddr (h : s.Sorted) (hj : 0 < j) (hjn : j ≤ s.n_) (hle : (s.r_ j).addr_ ≤ addr)
    (hlim : addr ≤ s.limit) (hlt : j < s.n_ → addr < (s.r_ (j + 1)).addr_) :
    (s.setAddr j addr).Sorted ∧ (s.setAddr j addr).limit = s.limit ∧
      ∀ a < s.limit, ¬((s.r_ j).addr_ ≤ a ∧ a < addr) → (s.setAddr j addr).type a = s.type a := by
  have hat : ((s.setAddr j addr).r_ j).addr_ = addr := by simp [memrangeset.setAddr]
  have hne : ∀ k, k ≠ j → (s.setAddr j addr).r_ k = s.r_ k := fun k hk => by simp [memrangeset.setAddr, hk]
  have htype : ∀ k, ((s.setAddr j addr).r_ k).type_ = (s.r_ k).type_ := by
    intro k
    by_cases hk : k = j
    · simp [memrangeset.setAddr, hk]
    · rw [hne k hk]
  have hsorted : (s.setAddr j addr).Sorted := by
    refine ⟨by rw [hne 0 hj.ne, h.zero], fun k hk => ?_⟩
    have hstep := h.step k hk
    by_cases hkj : k = j
    · rw [hkj, hat, hne (j + 1) (by omega)]
      exact hlt (by rw [← hkj]; exact hk)
    · rw [hne k hkj]
      by_cases hkj' : k + 1 = j
      · rw [hkj', hat]
        rw [hkj'] at hstep
        exact hstep.trans_le hle
      · rwa [hne (k + 1) hkj']
  refine ⟨hsorted, ?_, fun a ha hout => ?_⟩
  · unfold limit at hlim ⊢
    rcases hjn.lt_or_eq with hjn' | rfl
    · exact congrArg memrange.addr_ (hne s.n_ hjn'.ne')
    · exact hat.trans (le_antisymm hlim hle)
  · obtain ⟨k, hk, -⟩ := h.exists_in ha
    rw [h.type_eq hk]
    obtain ⟨hkn, hka, hak⟩ := hk
    rw [hsorted.type_eq (k := k) ⟨hkn, ?_, ?_⟩, htype k]
    · by_cases hkj : k = j
      · subst hkj
        rw [hat]
        omega
      · rwa [hne k hkj]
    · by_cases hkj : k + 1 = j
      · subst hkj
        rw [hat]
        omega
      · rwa [hne (k + 1) hkj]

/-! ## `set` -/

theorem Sorted.type_none (h : s.Sorted) (ha : s.limit ≤ a) : s.type a = none := by
  obtain ⟨-, hn, -, hlt⟩ := findLoop_spec a (Nat.zero_le s.n_) (h.zero.trans_le (Nat.zero_le a))
  have hend : s.findLoop a 0 = s.n_ := by
    by_contra hne
    have hfn := lt_of_le_of_ne hn hne
    have := hlt hfn
    have := h.le (i := s.findLoop a 0 + 1) hfn le_rfl
    unfold limit at ha
    omega
  unfold memrangeset.type
  exact if_neg (not_not.mpr hend)

/-- What `set` promises. -/
def SetOk (s : memrangeset maxsize) (first last : ℕ) (type : ℤ) (res : Option (Bool × memrangeset maxsize)) : Prop :=
  ∃ ok s', res = some (ok, s') ∧ s'.validate ∧ s'.limit = s.limit ∧
    ∀ a, s'.type a = if ok = true ∧ first ≤ a ∧ a < last then some type else s.type a

/-- A wider range will do, where it is of the type that was there. -/
theorem Bounds.setOk {first' last' : ℕ} (hv : s.validate) (h : s'.Bounds first' last' type i j) (hfirst : first' ≤ first)
    (hlast : last ≤ last') (hlimit : s'.limit = s.limit)
    (hfull : s' = s ∨ first' = (s'.r_ i).addr_ ∧ last' = (s'.r_ j).addr_)
    (hwide : ∀ a < s.limit, ¬(first ≤ a ∧ a < last) → first' ≤ a → a < last' → s.type a = some type)
    (hout : ∀ a < s.limit, ¬(first' ≤ a ∧ a < last') → s'.type a = s.type a) :
    s.SetOk first last type (s'.splitEnds first' last' type i j) := by
  obtain ⟨ok, s₁, hcode, hres⟩ := h.splitEnds
  refine ⟨ok, s₁, hcode, ?_⟩
  cases ok with
  | false =>
    obtain ⟨rfl, hne⟩ := hres
    have hsame : s₁ = s := hfull.resolve_right fun heq => by tauto
    subst hsame
    exact ⟨hv, rfl, fun a => by simp⟩
  | true =>
    obtain ⟨hv₁, hlim₁, htype⟩ := hres
    refine ⟨hv₁, hlim₁.trans hlimit, fun a => ?_⟩
    have hjn := h.sorted.le h.le_n le_rfl
    have hstop := h.stop
    by_cases ha : a < s.limit
    · rw [htype a (by rwa [hlimit])]
      by_cases hnew : first ≤ a ∧ a < last
      · rw [if_pos (by omega), if_pos ⟨rfl, hnew⟩]
      · have hkeep : ¬(true = true ∧ first ≤ a ∧ a < last) := fun hc => hnew hc.2
        rw [if_neg hkeep]
        by_cases hold : first' ≤ a ∧ a < last'
        · rw [if_pos hold, hwide a ha hnew hold.1 hold.2]
        · rw [if_neg hold, hout a ha hold]
    · have hle : last' ≤ s.limit := by
        rw [← hlimit]
        unfold limit
        rcases hstop.2 with heq | ⟨hjn', hlt⟩
        · rw [heq]
          exact hjn
        · exact hlt.le.trans (h.sorted.le hjn' le_rfl)
      rw [hv.sorted.type_none (not_lt.mp ha), hv₁.sorted.type_none (by omega), if_neg (by omega)]

/-- The upper bound, once the lower one is found. -/
theorem Start.setOk {first' : ℕ} (hv : s.validate) (h : s.Start first type i first') (hlt : first < last)
    (hlim : last ≤ s.limit) (hj : s.findLoop last i = j) :
    (j ≤ s.n_ ∧ last ≥ (s.r_ j).addr_ ∧ (j = s.n_ ∨ last < (s.r_ (j + 1)).addr_)) ∧
      (j < s.n_ ∧ (s.r_ j).type_ = type →
        s.SetOk first last type (s.splitEnds first' (s.r_ (j + 1)).addr_ type i (j + 1))) ∧
      (¬(j < s.n_ ∧ (s.r_ j).type_ = type) → j > i ∧ first' = (s.r_ i).addr_ →
        s.SetOk first last type ((s.setAddr j last).splitEnds first' last type i j)) ∧
      (¬(j < s.n_ ∧ (s.r_ j).type_ = type) → ¬(j > i ∧ first' = (s.r_ i).addr_) →
        s.SetOk first last type (s.splitEnds first' last type i j)) := by
  obtain ⟨hin, ⟨hlo, hhi⟩, hle, hnext, hleft, hinside, hwide⟩ := h
  obtain ⟨hij, hjn, hjlast, hlastj⟩ :=
    findLoop_spec (s := s) last hin.le (hlo.trans (hle.trans hlt.le))
  rw [hj] at hij hjn hjlast hlastj
  have hs := hv.sorted
  have hdiff : ∀ k, 0 < k → k < s.n_ → (s.r_ k).type_ ≠ (s.r_ (k - 1)).type_ := fun k h0 hk => hv.differs h0 hk
  refine ⟨⟨hjn, hjlast, ?_⟩, ?_, ?_, ?_⟩
  · rcases hjn.lt_or_eq with hjn' | heq
    · exact Or.inr (hlastj hjn')
    · exact Or.inl heq
  · -- the range goes on to the end of range `j`
    rintro ⟨hjn', htype⟩
    have hlt' := hlastj hjn'
    refine Bounds.setOk hv ⟨hs, hv.1.2, by omega, by omega, hin, hjn', ⟨hlo, hhi⟩, ⟨le_rfl, Or.inl rfl⟩, hleft, hinside,
      ?_, fun k h0 hk _ => hdiff k h0 hk⟩ hle hlt'.le rfl (Or.inl rfl) ?_ fun _ _ _ => rfl
    · by_cases hjn₁ : j + 1 = s.n_
      · exact Or.inl hjn₁
      · refine Or.inr ?_
        have := hdiff (j + 1) (by omega) (by omega)
        rwa [Nat.add_sub_cancel, htype] at this
    · intro a ha hnew hfa hal
      by_cases hfirst : a < first
      · exact hwide a hfa hfirst
      · rw [hs.type_eq (k := j) ⟨hjn', hjlast.trans (by omega), hal⟩, htype]
  · -- the entry at `j` moves up
    rintro hother ⟨hij', hfirst⟩
    have hfirstj : first ≤ (s.r_ j).addr_ := hnext.trans (hs.le hij' hjn)
    obtain ⟨hsorted, hlimit, hout⟩ := hs.setAddr (by omega) hjn hjlast hlim hlastj
    have hne : ∀ k, k ≠ j → (s.setAddr j last).r_ k = s.r_ k := fun k hk => by simp [memrangeset.setAddr, hk]
    have htypes : ∀ k, ((s.setAddr j last).r_ k).type_ = (s.r_ k).type_ := by
      intro k
      by_cases hk : k = j
      · simp [memrangeset.setAddr, hk]
      · rw [hne k hk]
    have hstart : first' = ((s.setAddr j last).r_ i).addr_ := by rw [hne i hij'.ne, hfirst]
    have hstop : last = ((s.setAddr j last).r_ j).addr_ := by simp [memrangeset.setAddr]
    refine Bounds.setOk hv ⟨hsorted, hv.1.2, by omega, hij, hin, hjn, ⟨hstart.ge, ?_⟩, ⟨hstop.ge, Or.inl hstop⟩, ?_, ?_, ?_,
      ?_⟩ hle le_rfl hlimit (Or.inr ⟨hstart, hstop⟩) ?_ ?_
    · rw [hstart]
      exact hsorted.step i hin
    · intro _
      rw [htypes]
      exact hleft hfirst
    · exact fun hne' => absurd hstart hne'
    · rw [htypes]
      rcases hjn.lt_or_eq with hjn' | heq
      · exact Or.inr fun htype => hother ⟨hjn', htype⟩
      · exact Or.inl heq
    · intro k h0 hk _
      rw [htypes, htypes]
      exact hdiff k h0 hk
    · intro a ha hnew hfa hal
      exact hwide a hfa (by omega)
    · exact fun a ha hold => hout a ha (by omega)
  · -- the range ends at `last`
    intro hother hmove
    refine Bounds.setOk hv ⟨hs, hv.1.2, by omega, hij, hin, hjn, ⟨hlo, hhi⟩, ⟨hjlast, ?_⟩, hleft, hinside, ?_,
      fun k h0 hk _ => hdiff k h0 hk⟩ hle le_rfl rfl (Or.inl rfl) ?_ fun _ _ _ => rfl
    · rcases hjn.lt_or_eq with hjn' | heq
      · exact Or.inr ⟨hjn', hlastj hjn'⟩
      · have hend : s.limit = (s.r_ j).addr_ := by rw [show j = s.n_ from heq]; rfl
        exact Or.inl (le_antisymm (by rwa [← hend]) hjlast)
    · rcases hjn.lt_or_eq with hjn' | heq
      · exact Or.inr fun htype => hother ⟨hjn', htype⟩
      · exact Or.inl heq
    · intro a ha hnew hfa hal
      exact hwide a hfa (by omega)

/-- **`set` gives the range its type and leaves every other address its own; when it does not, it changes nothing.
The ranges stay valid, with their limit, and no assertion fails.** -/
theorem set_ok (type : ℤ) (hv : s.validate) (hle : first ≤ last) (hlim : last ≤ s.limit) :
    s.SetOk first last type (s.set first last type) := by
  unfold memrangeset.set
  rw [if_neg (not_not.mpr ⟨hle, hlim⟩)]
  by_cases heq : first = last
  · rw [if_pos heq]
    refine ⟨true, s, rfl, hv, rfl, fun a => ?_⟩
    rw [if_neg (by omega)]
  rw [if_neg heq]
  have hlt : first < last := lt_of_le_of_ne hle heq
  obtain ⟨k, hloop, hk⟩ :=
    lowerLoop_spec hv.1.2 (hlt.trans_le hlim) hv.1.1 (hv.sorted.zero.trans_le (Nat.zero_le first))
  have hstart := hv.start type hk
  dsimp only at hstart
  simp only [hloop, Option.bind_eq_bind, Option.bind_some]
  rw [if_neg (by exact not_not.mpr hk)]
  generalize (if first = (s.r_ k).addr_ ∧ k > 0 ∧ (s.r_ (k - 1)).type_ = type then k - 1 else k) = i at hstart ⊢
  generalize (if (s.r_ i).type_ = type then (s.r_ i).addr_ else first) = first' at hstart ⊢
  generalize hj : s.findLoop last i = j
  obtain ⟨hassert, hto, hmove, hend⟩ := hstart.setOk hv hlt hlim hj
  rw [if_neg (not_not.mpr hassert)]
  by_cases hsame : j < s.n_ ∧ (s.r_ j).type_ = type
  · rw [if_pos hsame]
    exact hto hsame
  · rw [if_neg hsame]
    by_cases hup : j > i ∧ first' = (s.r_ i).addr_
    · rw [if_pos hup]
      exact hmove hsame hup
    · rw [if_neg hup]
      exact hend hsame hup

/-- Three ranges in four records: the middle one grows to the right. -/
theorem set_ok_grows :
    let s : memrangeset 4 := ⟨3, fun i => [⟨0, 0⟩, ⟨10, 1⟩, ⟨20, 2⟩, ⟨30, 0⟩].getD i ⟨0, 0⟩⟩
    s.SetOk 15 25 1 (s.set 15 25 1) :=
  set_ok 1 (by decide) (by decide) (by decide)

end memrangeset

end Chickadee.Memrange
