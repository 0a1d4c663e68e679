import Chickadee.Lib.Numeral
import Chickadee.Strings.Strtoul

/-!
# What `strtoul` and `strtol` accept
-/

namespace Chickadee.Strings

open Lib

variable {base b v x : ℕ} {c : ℤ} {s space sign pre digits rest : List ℤ}

/-! ## Digits -/

/-- What a digit or a letter denotes. -/
def denotes (c : ℤ) : ℕ :=
  if c ≤ chr '9' then (c - chr '0').toNat
  else if c < chr 'a' then (c - chr 'A' + 10).toNat
  else (c - chr 'a' + 10).toNat

/-- A digit that is valid in a base. -/
def Valid (b : ℕ) (c : ℤ) : Prop :=
  ((chr '0' ≤ c ∧ c ≤ chr '9') ∨ (chr 'A' ≤ c ∧ c ≤ chr 'Z') ∨ (chr 'a' ≤ c ∧ c ≤ chr 'z')) ∧ denotes c < b

instance : Decidable (Valid b c) := inferInstanceAs (Decidable (_ ∧ _))

/-- What is between `9` and `A`, and so near to `9` that the first test of the loop takes it for a digit. -/
def Between (b : ℕ) (c : ℤ) : Prop := chr '9' < c ∧ c < chr 'A' ∧ c < chr '0' + b

/-- A capital letter that the first test of the loop takes for a digit. -/
def Mistaken (b : ℕ) (c : ℤ) : Prop := chr 'A' ≤ c ∧ c < chr '0' + b

instance : Decidable (Between b c) := inferInstanceAs (Decidable (_ ∧ _))

instance : Decidable (Mistaken b c) := inferInstanceAs (Decidable (_ ∧ _))

theorem denotes_eq : denotes c = if c ≤ 57 then (c - 48).toNat else if c < 97 then (c - 65 + 10).toNat
    else (c - 97 + 10).toNat := rfl

theorem valid_iff : Valid b c ↔ ((48 ≤ c ∧ c ≤ 57) ∨ (65 ≤ c ∧ c ≤ 90) ∨ (97 ≤ c ∧ c ≤ 122)) ∧ denotes c < b := Iff.rfl

theorem between_iff : Between b c ↔ 57 < c ∧ c < 65 ∧ c < 48 + b := Iff.rfl

theorem mistaken_iff : Mistaken b c ↔ 65 ≤ c ∧ c < 48 + b := Iff.rfl

theorem digit_eq : digit b c =
    if c ≥ 48 ∧ c < 48 + b then some (c - 48).toNat
    else if b > 10 ∧ c ≥ 97 ∧ c < 97 + b - 10 then some (c - 97 + 10).toNat
    else if b > 10 ∧ c ≥ 65 ∧ c < 65 + b - 10 then some (c - 65 + 10).toNat
    else none := rfl

/-- The loop takes every valid digit, but adds seven to the capital letters that its first test takes. -/
theorem digit_of_valid (hb : b ≤ 36) (hc : Valid b c) :
    digit b c = some (denotes c + if Mistaken b c then 7 else 0) := by
  obtain ⟨hdigit | hcapital | hsmall, hlt⟩ := valid_iff.mp hc
  · have hden : denotes c = (c - 48).toNat := by rw [denotes_eq, if_pos hdigit.2]
    rw [hden] at hlt ⊢
    rw [digit_eq, if_pos (by omega), if_neg (by rw [mistaken_iff]; omega), Nat.add_zero]
  · have hden : denotes c = (c - 65 + 10).toNat := by rw [denotes_eq, if_neg (by omega), if_pos (by omega)]
    rw [hden] at hlt ⊢
    by_cases hmis : Mistaken b c
    · rw [if_pos hmis]
      rw [mistaken_iff] at hmis
      rw [digit_eq, if_pos (by omega), Option.some_inj]
      omega
    · rw [if_neg hmis, Nat.add_zero]
      rw [mistaken_iff] at hmis
      rw [digit_eq, if_neg (by omega), if_neg (by omega), if_pos (by omega)]
  · have hden : denotes c = (c - 97 + 10).toNat := by rw [denotes_eq, if_neg (by omega), if_neg (by omega)]
    rw [hden] at hlt ⊢
    rw [digit_eq, if_neg (by omega), if_pos (by omega), if_neg (by rw [mistaken_iff]; omega), Nat.add_zero]

theorem digit_of_between (hc : Between b c) : digit b c = some (c - 48).toNat := by
  rw [between_iff] at hc
  rw [digit_eq, if_pos (by omega)]

/-- The loop takes nothing else. -/
theorem digit_eq_none (hb : b ≤ 36) (hvalid : ¬Valid b c) (hbetween : ¬Between b c) : digit b c = none := by
  simp only [valid_iff, between_iff, digit_eq, denotes_eq] at hvalid hbetween ⊢
  split_ifs at hvalid ⊢ <;> first | rfl | (exfalso; omega)

theorem digit_lt {d : ℕ} (h : digit b c = some d) : d < b := by
  rw [digit_eq] at h
  split_ifs at h <;> simp only [Option.some.injEq] at h <;> omega

/-! ## The loop -/

/-- What the loop adds for a valid digit. -/
def taken (b : ℕ) (c : ℤ) : ℕ := denotes c + if Mistaken b c then 7 else 0

/-- `x` and `overflow` once the loop has read digits that make up `v`. -/
def Reads (v x : ℕ) (overflow : Bool) : Prop := if overflow then ULONG_MAX < v else x = v ∧ v ≤ ULONG_MAX

theorem Reads.min_eq {overflow : Bool} (h : Reads v x overflow) :
    (if overflow then ULONG_MAX else x) = min v ULONG_MAX := by
  cases overflow with
  | true => exact (min_eq_right (le_of_lt h)).symm
  | false =>
    obtain ⟨rfl, hle⟩ := h
    exact (min_eq_left hle).symm

/-- One digit. -/
theorem Reads.step {overflow : Bool} {d : ℕ} (hb : 2 ≤ b) (hb36 : b ≤ 36) (h : Reads v x overflow)
    (hd : digit b c = some d) : ∃ x' overflow', digitLoop b (c :: s) x overflow = digitLoop b s x' overflow' ∧
      Reads (v * b + d) x' overflow' := by
  have hdM : d ≤ ULONG_MAX := by
    have := digit_lt hd
    unfold ULONG_MAX
    omega
  have hgrow : v ≤ v * b + d := (Nat.le_mul_of_pos_right v (by omega)).trans (Nat.le_add_right _ d)
  by_cases hover : x > (ULONG_MAX - d) / b
  · refine ⟨x, true, by simp [digitLoop, hd, hover], ?_⟩
    cases overflow with
    | true => exact lt_of_lt_of_le (show ULONG_MAX < v from h) hgrow
    | false =>
      obtain ⟨rfl, -⟩ := h
      exact (overflow_iff (by omega) hdM).mp hover
  · refine ⟨(x * b + d) % 2 ^ 64, overflow, by simp only [digitLoop, hd, if_neg hover], ?_⟩
    cases overflow with
    | true => exact lt_of_lt_of_le (show ULONG_MAX < v from h) hgrow
    | false =>
      obtain ⟨rfl, -⟩ := h
      rw [overflow_iff (by omega) hdM] at hover
      refine ⟨Nat.mod_eq_of_lt ?_, not_lt.mp hover⟩
      unfold ULONG_MAX at hover
      omega

/-- The digits of a number are read. -/
theorem digitLoop_digits (rest : List ℤ) {overflow : Bool} (hb : 2 ≤ b) (hb36 : b ≤ 36) (hdigits : ∀ c ∈ digits, Valid b c)
    (h : Reads v x overflow) : ∃ x' overflow', digitLoop b (digits ++ rest) x overflow = digitLoop b rest x' overflow' ∧
      Reads (number b (taken b) v digits) x' overflow' := by
  induction digits generalizing v x overflow with
  | nil => exact ⟨x, overflow, rfl, h⟩
  | cons c digits ih =>
    obtain ⟨x₁, overflow₁, hcode, hreads⟩ := h.step hb hb36 (digit_of_valid hb36 (hdigits c List.mem_cons_self))
    obtain ⟨x', overflow', hcode', hreads'⟩ := ih (fun e he => hdigits e (List.mem_cons_of_mem c he)) hreads
    exact ⟨x', overflow', hcode.trans hcode', hreads'⟩

/-- The loop never goes back. -/
theorem digitLoop_length (b : ℕ) (s : List ℤ) (x : ℕ) (overflow : Bool) :
    (digitLoop b s x overflow).2.2.length ≤ s.length := by
  induction s generalizing x overflow with
  | nil => exact le_rfl
  | cons c s ih =>
    rw [digitLoop]
    cases digit b c with
    | none => exact le_rfl
    | some d =>
      dsimp only
      rw [List.length_cons]
      split
      · exact (ih _ _).trans (Nat.le_succ _)
      · exact (ih _ _).trans (Nat.le_succ _)

/-- The loop stops where it is, exactly when there is nothing that it takes. -/
theorem digitLoop_rest (x : ℕ) (overflow : Bool) (hb36 : b ≤ 36) (hrest : ∀ c ∈ rest.head?, ¬Valid b c) :
    if ∀ c ∈ rest.head?, ¬Between b c then digitLoop b rest x overflow = (x, overflow, rest)
    else (digitLoop b rest x overflow).2.2 ≠ rest := by
  cases rest with
  | nil => simp [digitLoop]
  | cons c rest =>
    simp only [List.head?_cons, Option.mem_def, Option.some.injEq, forall_eq'] at hrest ⊢
    by_cases hc : Between b c
    · rw [if_neg (not_not.mpr hc), digitLoop, digit_of_between hc]
      intro heq
      have hlen := congrArg List.length heq
      dsimp only at hlen
      split at hlen
      · have := digitLoop_length b rest x true
        rw [hlen, List.length_cons] at this
        omega
      · have := digitLoop_length b rest ((x * b + (c - 48).toNat) % 2 ^ 64) overflow
        rw [hlen, List.length_cons] at this
        omega
    · rw [if_pos hc, digitLoop, digit_eq_none hb36 hrest hc]

/-! ## The grammar -/

/-- `0x` or `0X` -/
def HexPrefix (pre : List ℤ) : Prop := pre = [chr '0', chr 'x'] ∨ pre = [chr '0', chr 'X']

/-- How a string is read in a base: white space, a sign, a prefix, the longest run of digits, and the rest. `0x` is a
prefix where a digit follows. -/
structure Subject (base : ℕ) (s sign pre digits rest : List ℤ) (b : ℕ) : Prop where
  text : ∃ space, (∀ c ∈ space, isspace c = true) ∧ s = space ++ (sign ++ (pre ++ (digits ++ rest)))
  sign : sign = [] ∨ sign = [chr '+'] ∨ sign = [chr '-']
  base_of : ((base = 0 ∨ base = 16) ∧ HexPrefix pre ∧ b = 16) ∨
    (pre = [] ∧ ¬((base = 0 ∨ base = 16) ∧ ∃ p c t, HexPrefix p ∧ Valid 16 c ∧ digits ++ rest = p ++ c :: t) ∧
      b = if base = 0 then if digits.head? = some (chr '0') then 8 else 10 else base)
  digits_ne : digits ≠ []
  valid : ∀ c ∈ digits, Valid b c
  longest : ∀ c ∈ rest.head?, ¬Valid b c

/-- The text has `0x` without a digit behind it, so that its number is the zero. -/
def BarePrefix (base : ℕ) (pre digits rest : List ℤ) : Prop :=
  (base = 0 ∨ base = 16) ∧ pre = [] ∧ ∃ p t, HexPrefix p ∧ digits ++ rest = p ++ t

/-- Nothing behind the number is mistaken for a part of it. -/
def EndRight (base : ℕ) (pre digits rest : List ℤ) (b : ℕ) : Prop :=
  ¬BarePrefix base pre digits rest ∧ ∀ c ∈ rest.head?, ¬Between b c

theorem hexPrefix_iff :
    (∃ p t, HexPrefix p ∧ s = p ++ t) ↔ get s 0 = chr '0' ∧ (get s 1 = chr 'x' ∨ get s 1 = chr 'X') := by
  constructor
  · rintro ⟨p, t, rfl | rfl, rfl⟩ <;> simp [get]
  · intro h
    rcases s with _ | ⟨c, _ | ⟨d, t⟩⟩
    · simp [get, chr] at h
    · simp [get, chr] at h
    · simp only [get, List.getD_cons_zero, List.getD_cons_succ] at h
      obtain ⟨rfl, rfl | rfl⟩ := h
      · exact ⟨_, t, Or.inl rfl, rfl⟩
      · exact ⟨_, t, Or.inr rfl, rfl⟩

namespace Subject

theorem base_le (hbase : base = 0 ∨ 2 ≤ base ∧ base ≤ 36) (h : Subject base s sign pre digits rest b) :
    2 ≤ b ∧ b ≤ 36 := by
  rcases h.base_of with ⟨-, -, rfl⟩ | ⟨-, -, rfl⟩
  · omega
  · split_ifs <;> omega

/-- The number starts with a digit, which is no space and no sign. -/
theorem head (h : Subject base s sign pre digits rest b) : ∃ c t, pre ++ (digits ++ rest) = c :: t ∧ 48 ≤ c := by
  rcases h.base_of with ⟨-, rfl | rfl, -⟩ | ⟨rfl, -⟩
  · exact ⟨_, _, rfl, le_rfl⟩
  · exact ⟨_, _, rfl, le_rfl⟩
  · obtain ⟨c, t, rfl⟩ := List.exists_cons_of_ne_nil h.digits_ne
    have hc := (valid_iff.mp (h.valid c List.mem_cons_self)).1
    exact ⟨c, t ++ rest, rfl, by omega⟩

/-- The prefix is left out, where it has digits behind it. -/
theorem basePrefix_eq (h : Subject base s sign pre digits rest b) (hbare : ¬BarePrefix base pre digits rest) :
    basePrefix base (pre ++ (digits ++ rest)) = (b, digits ++ rest) := by
  rcases h.base_of with ⟨hbase, hpre, rfl⟩ | ⟨rfl, -, rfl⟩
  · rcases hbase with rfl | rfl <;> rcases hpre with rfl | rfl <;> simp [basePrefix, get]
  · unfold BarePrefix at hbare
    rw [hexPrefix_iff] at hbare
    have hget : get (digits ++ rest) 0 = chr '0' ↔ digits.head? = some (chr '0') := by
      obtain ⟨c, t, rfl⟩ := List.exists_cons_of_ne_nil h.digits_ne
      simp [get]
    rw [List.nil_append]
    unfold basePrefix
    by_cases hzero : base = 0
    · rw [if_pos hzero, if_neg fun hx => hbare ⟨Or.inl hzero, rfl, hx⟩, if_pos hzero]
      simp only [hget]
      split <;> rfl
    · rw [if_neg hzero, if_neg fun hx => hbare ⟨Or.inr hx.1, rfl, hx.2⟩, if_neg hzero]

/-- No prefix has a digit of the bases that it could be read in. -/
theorem not_valid_x (hb : b ≤ 16) (hc : c = chr 'x' ∨ c = chr 'X') : ¬Valid b c := by
  rcases hc with rfl | rfl
  · intro h
    exact absurd (h.2.trans_le hb) (by decide)
  · intro h
    exact absurd (h.2.trans_le hb) (by decide)

/-- A prefix that has no digits behind it is left out as well, and the zero with it. -/
theorem basePrefix_bare (h : Subject base s sign pre digits rest b) (hbare : BarePrefix base pre digits rest) :
    (basePrefix base (pre ++ (digits ++ rest))).2.length < rest.length := by
  obtain ⟨hbase, rfl, hp⟩ := hbare
  obtain ⟨hzero, hx⟩ := hexPrefix_iff.mp hp
  obtain ⟨c, ds, rfl⟩ := List.exists_cons_of_ne_nil h.digits_ne
  have hc : c = chr '0' := by simpa [get] using hzero
  have hb : b ≤ 16 := by
    rcases h.base_of with ⟨-, hpre | hpre, -⟩ | ⟨-, -, rfl⟩
    · cases hpre
    · cases hpre
    · rcases hbase with rfl | rfl
      · simp [hc]
      · simp
  cases ds with
  | cons d ds =>
    have hd : d = chr 'x' ∨ d = chr 'X' := by simpa [get] using hx
    exact absurd (h.valid d (by simp)) (not_valid_x hb hd)
  | nil =>
    have hcode : (basePrefix base ([] ++ ([c] ++ rest))).2 = ([c] ++ rest).drop 2 := by
      rcases hbase with rfl | rfl
      · exact congrArg Prod.snd ((if_pos rfl).trans (if_pos ⟨hzero, hx⟩))
      · exact congrArg Prod.snd ((if_neg (by decide)).trans (if_pos ⟨rfl, hzero, hx⟩))
    rw [hcode]
    cases rest with
    | nil => simp [get, chr] at hx
    | cons d rest => simp

/-! ## The value and the end -/

theorem magnitude_eq (hbase : base = 0 ∨ 2 ≤ base ∧ base ≤ 36) (h : Subject base s sign pre digits rest b)
    (hend : EndRight base pre digits rest b) :
    magnitude base (pre ++ (digits ++ rest)) = (min (number b (taken b) 0 digits) ULONG_MAX, rest) := by
  obtain ⟨hb, hb36⟩ := h.base_le hbase
  have hzero : Reads 0 0 false := ⟨rfl, Nat.zero_le _⟩
  obtain ⟨x, overflow, hcode, hreads⟩ := digitLoop_digits rest hb hb36 h.valid hzero
  have hstop := digitLoop_rest x overflow hb36 h.longest
  rw [if_pos hend.2] at hstop
  simp only [magnitude, h.basePrefix_eq hend.1, hcode, hstop, hreads.min_eq]

theorem magnitude_ne (hbase : base = 0 ∨ 2 ≤ base ∧ base ≤ 36) (h : Subject base s sign pre digits rest b)
    (hend : ¬EndRight base pre digits rest b) : (magnitude base (pre ++ (digits ++ rest))).2 ≠ rest := by
  by_cases hbare : BarePrefix base pre digits rest
  · have hlen := h.basePrefix_bare hbare
    intro heq
    exact absurd (congrArg List.length heq) ((digitLoop_length _ _ _ _).trans_lt hlen).ne
  · obtain ⟨hb, hb36⟩ := h.base_le hbase
    have hzero : Reads 0 0 false := ⟨rfl, Nat.zero_le _⟩
    obtain ⟨x, overflow, hcode, -⟩ := digitLoop_digits rest hb hb36 h.valid hzero
    have hstop := digitLoop_rest x overflow hb36 h.longest
    rw [if_neg fun hc => hend ⟨hbare, hc⟩] at hstop
    simpa only [magnitude, h.basePrefix_eq hbare, hcode] using hstop

/-- `strtoul` gets to the number, whatever is before it. -/
theorem strtoul_eq (h : Subject base s sign pre digits rest b) :
    strtoul s base = (if sign = [chr '-'] then neg (magnitude base (pre ++ (digits ++ rest))).1
      else (magnitude base (pre ++ (digits ++ rest))).1, (magnitude base (pre ++ (digits ++ rest))).2) := by
  obtain ⟨space, hspace, rfl⟩ := h.text
  obtain ⟨c, t, hbody, hc⟩ := h.head
  rw [hbody]
  have hskip : ∀ d u, isspace d = false → (space ++ d :: u).dropWhile isspace = d :: u := by
    intro d u hd
    rw [List.dropWhile_append_of_pos hspace, List.dropWhile_cons_of_neg (by simp [hd])]
  have hplus : chr '+' ≠ chr '-' := by decide
  rcases h.sign with rfl | rfl | rfl
  · have hspc : isspace c = false := by
      simp [isspace, chr]
      omega
    have hm : c ≠ chr '-' ∧ c ≠ chr '+' := by simp [chr]; omega
    simp [strtoul, hskip c t hspc, get, hm]
  · simp [strtoul, hskip (chr '+') (c :: t) rfl, get, hplus]
  · simp [strtoul, hskip (chr '-') (c :: t) rfl, get]

/-- `strtol` takes a minus sign, and leaves the rest to `strtoul`. -/
theorem strtol_eq (h : Subject base s sign pre digits rest b) :
    strtol s base = (long (if sign = [chr '-'] then neg (min (magnitude base (pre ++ (digits ++ rest))).1 (2 ^ 63))
      else min (magnitude base (pre ++ (digits ++ rest))).1 (2 ^ 63 - 1)),
      (magnitude base (pre ++ (digits ++ rest))).2) := by
  have hmin : ∀ u bound : ℕ, (if u > bound then bound else u) = min u bound := fun u bound => by
    split <;> omega
  have hskip : ∀ d u, isspace d = false → (d :: u).dropWhile isspace = d :: u := fun d u hd =>
    List.dropWhile_cons_of_neg (by simp [hd])
  obtain ⟨space, hspace, rfl⟩ := h.text
  have hbase := h.base_of
  have hcut : (space ++ (sign ++ (pre ++ (digits ++ rest)))).dropWhile isspace = sign ++ (pre ++ (digits ++ rest)) := by
    rw [List.dropWhile_append_of_pos hspace]
    rcases h.sign with rfl | rfl | rfl
    · obtain ⟨c, t, hbody, hc⟩ := h.head
      rw [List.nil_append, hbody, hskip]
      simp [isspace, chr]
      omega
    · exact hskip _ _ rfl
    · exact hskip _ _ rfl
  by_cases hneg : sign = [chr '-']
  · have hsub : Subject base (pre ++ (digits ++ rest)) [] pre digits rest b :=
      ⟨⟨[], by simp, rfl⟩, Or.inl rfl, hbase, h.digits_ne, h.valid, h.longest⟩
    have hcode := hsub.strtoul_eq
    rw [if_neg (by simp)] at hcode
    unfold strtol
    rw [hcut]
    subst hneg
    simp [get, hcode, hmin]
  · have hsub : Subject base (sign ++ (pre ++ (digits ++ rest))) sign pre digits rest b :=
      ⟨⟨[], by simp, rfl⟩, h.sign, hbase, h.digits_ne, h.valid, h.longest⟩
    have hcode := hsub.strtoul_eq
    have hplain : get (sign ++ (pre ++ (digits ++ rest))) 0 ≠ chr '-' := by
      rcases h.sign with rfl | rfl | rfl
      · obtain ⟨c, t, hbody, hc⟩ := h.head
        rw [List.nil_append, hbody]
        simp [get, chr]
        omega
      · simp [get, chr]
      · exact absurd rfl hneg
    rw [if_neg hneg] at hcode
    unfold strtol
    rw [hcut]
    simp [hplain, hcode, hmin, hneg]

end Subject

/-! ## What they return -/

/-- The `unsigned long` of a numeral, as the C library has it: a number that does not fit is `ULONG_MAX`. -/
def toUlong (negative : Bool) (v : ℕ) : ℕ := if v > ULONG_MAX then ULONG_MAX else if negative then neg v else v

/-- The `long` of a numeral. -/
def toLong (negative : Bool) (v : ℕ) : ℤ := if negative then max (-v) (-2 ^ 63) else min v (2 ^ 63 - 1)

/-- No capital letter of the numeral is mistaken for a digit. -/
def CapitalsRight (b : ℕ) (digits : List ℤ) : Prop := ∀ c ∈ digits, ¬Mistaken b c

theorem number_taken (digits : List ℤ) (hb : 0 < b) : number b denotes 0 digits ≤ number b (taken b) 0 digits ∧
    (number b (taken b) 0 digits = number b denotes 0 digits ↔ CapitalsRight b digits) := by
  have hle : ∀ c ∈ digits, denotes c ≤ taken b c := fun c _ => Nat.le_add_right _ _
  refine ⟨number_mono le_rfl hle, (number_eq_iff hb hle).trans (forall₂_congr fun c _ => ?_)⟩
  by_cases hc : Mistaken b c <;> simp [taken, hc]

theorem neg_min_eq_iff {v w : ℕ} (hle : v ≤ w) :
    neg (min w ULONG_MAX) = toUlong true v ↔ v ≤ ULONG_MAX ∧ (w = v ∨ v = ULONG_MAX) := by
  unfold neg toUlong neg ULONG_MAX
  rw [if_pos rfl]
  split <;> omega

theorem min_eq_iff {v w : ℕ} (hle : v ≤ w) : min w ULONG_MAX = toUlong false v ↔ w = v ∨ ULONG_MAX ≤ v := by
  unfold toUlong ULONG_MAX
  rw [if_neg Bool.false_ne_true]
  split <;> omega

theorem long_neg_min_eq_iff {v w : ℕ} (hle : v ≤ w) :
    long (neg (min (min w ULONG_MAX) (2 ^ 63))) = toLong true v ↔ w = v ∨ 2 ^ 63 ≤ v := by
  unfold long neg toLong ULONG_MAX
  rw [if_pos rfl]
  split <;> omega

theorem long_min_eq_iff {v w : ℕ} (hle : v ≤ w) :
    long (min (min w ULONG_MAX) (2 ^ 63 - 1)) = toLong false v ↔ w = v ∨ 2 ^ 63 - 1 ≤ v := by
  unfold long toLong ULONG_MAX
  rw [if_neg Bool.false_ne_true]
  split <;> omega

/-- **`strtoul` and `strtol` stop behind the number exactly when nothing there is mistaken for a part of it. Then the
value is right exactly when no capital letter is mistaken for a digit, or the number is so large that it does not
matter; but `strtoul` negates `ULONG_MAX` when a negative number does not fit.** -/
theorem strtoul_strtol_iff (hbase : base = 0 ∨ 2 ≤ base ∧ base ≤ 36) (h : Subject base s sign pre digits rest b) :
    let negative := decide (sign = [chr '-'])
    let v := number b denotes 0 digits
    (strtoul s base = (toUlong negative v, rest) ↔ EndRight base pre digits rest b ∧
      if negative then v ≤ ULONG_MAX ∧ (CapitalsRight b digits ∨ v = ULONG_MAX)
      else CapitalsRight b digits ∨ ULONG_MAX ≤ v) ∧
    (strtol s base = (toLong negative v, rest) ↔ EndRight base pre digits rest b ∧
      (CapitalsRight b digits ∨ (if negative then 2 ^ 63 else 2 ^ 63 - 1) ≤ v)) := by
  intro negative v
  have hul := h.strtoul_eq
  have hl := h.strtol_eq
  by_cases hend : EndRight base pre digits rest b
  · obtain ⟨hle, heq⟩ := number_taken (b := b) digits (by have := (h.base_le hbase).1; omega)
    rw [h.magnitude_eq hbase hend] at hul hl
    rw [hul, hl, ← heq]
    by_cases hneg : sign = [chr '-']
    · have hnegative : negative = true := decide_eq_true hneg
      simp only [if_pos hneg, hnegative, Prod.mk.injEq, and_true, hend, true_and, if_true]
      exact ⟨neg_min_eq_iff hle, long_neg_min_eq_iff hle⟩
    · have hnegative : negative = false := decide_eq_false hneg
      simp only [if_neg hneg, hnegative, Prod.mk.injEq, and_true, hend, true_and, Bool.false_eq_true, if_false]
      exact ⟨min_eq_iff hle, long_min_eq_iff hle⟩
  · have hne := h.magnitude_ne hbase hend
    constructor
    · refine iff_of_false (fun hres => hne ?_) fun hc => hend hc.1
      rw [hul] at hres
      exact congrArg Prod.snd hres
    · refine iff_of_false (fun hres => hne ?_) fun hc => hend hc.1
      rw [hl] at hres
      exact congrArg Prod.snd hres

/-- ` -0x7fg`, in a base that the prefix says. -/
theorem strtoul_strtol_iff_hex :
    let s := [chr ' ', chr '-', chr '0', chr 'x', chr '7', chr 'f', chr 'g']
    (strtoul s 0 = (toUlong true (number 16 denotes 0 [chr '7', chr 'f']), [chr 'g']) ↔
      EndRight 0 [chr '0', chr 'x'] [chr '7', chr 'f'] [chr 'g'] 16 ∧
        number 16 denotes 0 [chr '7', chr 'f'] ≤ ULONG_MAX ∧ (CapitalsRight 16 [chr '7', chr 'f'] ∨
          number 16 denotes 0 [chr '7', chr 'f'] = ULONG_MAX)) := by
  intro s
  have hsub : Subject 0 s [chr '-'] [chr '0', chr 'x'] [chr '7', chr 'f'] [chr 'g'] 16 :=
    ⟨⟨[chr ' '], by decide, rfl⟩, Or.inr (Or.inr rfl), Or.inl ⟨Or.inl rfl, Or.inl rfl, rfl⟩, by simp, by decide,
      by decide⟩
  exact (strtoul_strtol_iff (Or.inl rfl) hsub).1

/-- `1:` in base 16: the colon is not a digit, but the loop takes it for the digit ten. -/
theorem strtoul_strtol_fails :
    ¬∀ base s sign pre digits rest b, base = 0 ∨ 2 ≤ base ∧ base ≤ 36 → Subject base s sign pre digits rest b →
      strtoul s base = (toUlong (decide (sign = [chr '-'])) (number b denotes 0 digits), rest) ∧
        strtol s base = (toLong (decide (sign = [chr '-'])) (number b denotes 0 digits), rest) := by
  intro hall
  have hsub : Subject 16 [chr '1', chr ':'] [] [] [chr '1'] [chr ':'] 16 := by
    refine ⟨⟨[], by simp, rfl⟩, Or.inl rfl, Or.inr ⟨rfl, ?_, rfl⟩, by simp, by decide, by decide⟩
    rintro ⟨-, p, c, t, rfl | rfl, -, ht⟩ <;> simp [chr] at ht
  have hvalue := (hall 16 [chr '1', chr ':'] [] [] [chr '1'] [chr ':'] 16 (by simp) hsub).1
  exact absurd hvalue (by decide)

end Chickadee.Strings
