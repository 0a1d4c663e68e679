import Chickadee.Lib.Run
import Chickadee.Alloc.Kalloc

/-!
# Runs of the allocator

`Sys` pairs the state of the allocator with the list of live allocations. `SysInv` says that the
buddy metadata is consistent, that every live allocation is a `returned` block or a used chunk, and
that no `returned` block is missing from the list. Every call keeps it (`step_inv`), so it holds in
every reachable state (`SysInv.reach`).
-/

namespace Chickadee.Alloc

open Chickadee.Lib

/-- The allocator with the pointers it has handed out and the sizes that were asked for. -/
structure Sys where
  k : Kstate
  live : List (ℕ × ℕ)

/-- A call, with the content of memory at that time. -/
inductive Op
  | kalloc (m : Mem) (sz : ℕ)
  | kfree (m : Mem) (ptr : ℕ)
  | disable_kalloc
  | enable_kalloc

instance (m : Mem) (ptr : ℕ) : Decidable (TakesBuddyPath m ptr) := inferInstanceAs (Decidable (_ ≠ _))

/-- `kfree` mistakes the pointer of a block for that of a chunk. -/
def Fooled (m : Mem) (ptr : ℕ) : Prop := ptr < KTEXT_BASE ∧ ¬ TakesBuddyPath m ptr
deriving Decidable

/--
One call. A block stays live when `kfree` mistook it for a chunk, because such a call gives nothing
back.
-/
def Sys.step (L : Layout) (s : Sys) : Op → Option Sys
  | .kalloc m sz =>
    match kalloc L m s.k sz with
    | none => none
    | some (k, ptr) => some { k, live := if ptr = 0 then s.live else (ptr, sz) :: s.live }
  | .kfree m ptr =>
    match kfree L m s.k ptr with
    | none => none
    | some k => some { k, live := if Fooled m ptr then s.live else s.live.filter (·.1 ≠ ptr) }
  | .disable_kalloc => some { s with k := { s.k with kalloc_disabled := true } }
  | .enable_kalloc => some { s with k := { s.k with kalloc_disabled := false } }

/-- The state after initialization. -/
def Sys.init (b : Buddy) : Sys := { k := .init b, live := [] }

/-- The headers of the chunks are intact, and only live pointers are freed. -/
def Intact (L : Layout) (s : Sys) : Op → Prop
  | .kalloc m _ => SlabHeaders L m
  | .kfree m ptr => SlabHeaders L m ∧ ∃ sz, (ptr, sz) ∈ s.live
  | .disable_kalloc => True
  | .enable_kalloc => True

/-- Moreover `kfree` takes no block for a chunk. -/
def Correct (L : Layout) (s : Sys) (op : Op) : Prop :=
  Intact L s op ∧ match op with
    | .kfree m ptr => ¬ Fooled m ptr
    | _ => True

/-- The states reached from `init_kalloc` by steps that meet `ok`. -/
def Reachable (L : Layout) (b : Buddy) (ok : Sys → Op → Prop) (s : Sys) : Prop :=
  Reach (· = Sys.init b) (fun s op s' => s.step L op = some s') ok s

/-! ## The invariant -/

/-- The order, above that of a page, of the block that `kalloc` looks for. -/
def blockOrder (sz : ℕ) : ℕ := max (order sz) MIN_ORDER - MIN_ORDER

/-- The live allocation `a` is a block. -/
def BlockLive (G : Grid) (b : Buddy) (a : ℕ × ℕ) : Prop :=
  ∃ p ∈ G.dom, a.1 = blockPtr p ∧ (b.pgmap p).returned = true ∧
    (b.pgmap p).ord = blockOrder a.2 + MIN_ORDER ∧ 0 < a.2 ∧ a.2 ≤ 2 ^ MAX_ORDER

/-- The live allocation `a` is a chunk. -/
def ChunkLive (L : Layout) (k : Kstate) (a : ℕ × ℕ) : Prop :=
  ∃ K i c, i < K.count ∧ c < K.num ∧ a.1 = L.data K i c ∧ ChunkUsed k K i c ∧ 0 < a.2 ∧
    a.2 ≤ K.datasize

/-- **The invariant of the allocator with its callers.** -/
structure SysInv (L : Layout) (G : Grid) (s : Sys) : Prop where
  buddy : ∃ kt, BuddyInv G kt ∅ s.k.buddy
  noBuddies : NoBuddies G s.k.buddy
  slabs : SlabsInv s.k
  nodup : (s.live.map Prod.fst).Nodup
  live : ∀ a ∈ s.live, BlockLive G s.k.buddy a ∨ ChunkLive L s.k a
  returned : ∀ p ∈ G.dom, (s.k.buddy.pgmap p).returned = true → ∃ sz, (blockPtr p, sz) ∈ s.live

variable {L : Layout} {G : Grid} {m : Mem} {k k' : Kstate} {K : SlabKind} {i c p sz ptr : ℕ}
variable {b b' : Buddy} {s s' : Sys} {op : Op}

theorem step_kalloc (h : kalloc L m s.k sz = some (k', ptr)) :
    s.step L (.kalloc m sz) =
      some { k := k', live := if ptr = 0 then s.live else (ptr, sz) :: s.live } := by
  simp only [Sys.step, h]

theorem step_kfree (h : kfree L m s.k ptr = some k') :
    s.step L (.kfree m ptr) =
      some { k := k', live := if Fooled m ptr then s.live else s.live.filter (·.1 ≠ ptr) } := by
  simp only [Sys.step, h]

theorem step_kfree_none (h : kfree L m s.k ptr = none) : s.step L (.kfree m ptr) = none := by
  simp only [Sys.step, h]

/-! ## Where the pointers point -/

theorem data_ge (hL : L.Valid) : KTEXT_BASE ≤ L.data K i c := by
  have h₁ := hL.small_text
  have h₂ := hL.big_text
  cases K <;> simp only [Layout.data, chunkAddr, Layout.slab] <;> omega

/-- A chunk lies inside its slab. -/
theorem chunk_in_slab (hc : c < K.num) :
    L.slab K i ≤ chunkAddr K (L.slab K i) c ∧
      chunkAddr K (L.slab K i) c + K.chunksize ≤ L.slab K i + K.sizeof := by
  have h : (c + 1) * K.chunksize ≤ K.num * K.chunksize := Nat.mul_le_mul_right _ hc
  have hs : SlabKind.chunksOffset + K.num * K.chunksize ≤ K.sizeof := by cases K <;> decide
  rw [Nat.add_mul, Nat.one_mul] at h
  unfold chunkAddr
  omega

/-- Two slabs of one kind do not overlap. -/
theorem slab_disjoint {i' : ℕ} (h : i < i') : L.slab K i + K.sizeof ≤ L.slab K i' := by
  have hmul : (i + 1) * K.sizeof ≤ i' * K.sizeof := Nat.mul_le_mul_right _ h
  rw [Nat.add_mul, Nat.one_mul] at hmul
  cases K <;> simp only [Layout.slab] <;> omega

/-- The slabs of one kind lie within the array. -/
theorem slab_in_array (hi : i < K.count) :
    L.slab K 0 ≤ L.slab K i ∧ L.slab K i + K.sizeof ≤ L.slab K 0 + 2 * K.sizeof := by
  have hcount : K.count ≤ 2 := by cases K <;> decide
  have hmul : (i + 1) * K.sizeof ≤ 2 * K.sizeof := Nat.mul_le_mul_right _ (by omega)
  rw [Nat.add_mul, Nat.one_mul] at hmul
  cases K <;> simp only [Layout.slab] <;> omega

/-- **Different chunks do not overlap.** -/
theorem data_disjoint (hL : L.Valid) {K' : SlabKind} {i' c' : ℕ} (hi : i < K.count)
    (hi' : i' < K'.count) (hc : c < K.num) (hc' : c' < K'.num)
    (hne : ¬ (K = K' ∧ i = i' ∧ c = c')) :
    L.data K i c + K.datasize ≤ L.data K' i' c' ∨
      L.data K' i' c' + K'.datasize ≤ L.data K i c := by
  have hin := chunk_in_slab (L := L) (i := i) hc
  have hin' := chunk_in_slab (L := L) (i := i') hc'
  have hsz : K.datasize + 8 = K.chunksize := by cases K <;> decide
  have hsz' : K'.datasize + 8 = K'.chunksize := by cases K' <;> decide
  unfold Layout.data
  by_cases hK : K = K'
  · subst hK
    rcases Nat.lt_trichotomy i i' with h | rfl | h
    · have := slab_disjoint (L := L) (K := K) h
      omega
    · have hcc : c ≠ c' := fun he => hne ⟨rfl, rfl, he⟩
      unfold chunkAddr
      rcases Nat.lt_or_gt_of_ne hcc with h | h
      · have hmul : (c + 1) * K.chunksize ≤ c' * K.chunksize := Nat.mul_le_mul_right _ h
        rw [Nat.add_mul, Nat.one_mul] at hmul
        omega
      · have hmul : (c' + 1) * K.chunksize ≤ c * K.chunksize := Nat.mul_le_mul_right _ h
        rw [Nat.add_mul, Nat.one_mul] at hmul
        omega
    · have := slab_disjoint (L := L) (K := K) h
      omega
  · have harr := slab_in_array (L := L) hi
    have harr' := slab_in_array (L := L) hi'
    have hdis := hL.disjoint
    cases K <;> cases K'
    · exact absurd rfl hK
    · simp only [Layout.slab, Nat.zero_mul, Nat.add_zero] at harr harr' hin hin' ⊢
      omega
    · simp only [Layout.slab, Nat.zero_mul, Nat.add_zero] at harr harr' hin hin' ⊢
      omega
    · exact absurd rfl hK

/-- A pointer into a slab names its chunk. -/
theorem data_inj (hL : L.Valid) {K' : SlabKind} {i' c' : ℕ} (hi : i < K.count)
    (hi' : i' < K'.count) (hc : c < K.num) (hc' : c' < K'.num)
    (h : L.data K i c = L.data K' i' c') : K = K' ∧ i = i' ∧ c = c' := by
  by_contra hne
  have hpos : 0 < K.datasize := by cases K <;> decide
  have hpos' : 0 < K'.datasize := by cases K' <;> decide
  rcases data_disjoint hL hi hi' hc hc' hne with hd | hd <;> omega

/-! ## What a call of `kalloc` does -/

/-- The three outcomes of `kalloc`. -/
inductive KallocResult (L : Layout) (G : Grid) (k : Kstate) (sz : ℕ) : Option (Kstate × ℕ) → Prop
  | null : KallocResult L G k sz (some (k, 0))
  | chunk {k' : Kstate} {K : SlabKind} {i c : ℕ} (hg : GaveChunk K i c k k') (hpos : 0 < sz)
      (hsz : sz ≤ K.datasize) : KallocResult L G k sz (some (k', L.data K i c))
  | block {b : Buddy} {kt : ℕ → ℕ} {p : ℕ} (hpos : 0 < sz) (hsz : sz ≤ 2 ^ MAX_ORDER)
      (hb : BuddyInv G kt ∅ b) (ha : Allocated G p (blockOrder sz) k.buddy b)
      (hn : NoBuddies G k.buddy → NoBuddies G b) :
      KallocResult L G k sz (some ({ k with buddy := b }, blockPtr p))

theorem kalloc_result {kt : ℕ → ℕ} (hb : BuddyInv G kt ∅ k.buddy) (hk : SlabsInv k)
    (hm : SlabHeaders L m) (sz : ℕ) : KallocResult L G k sz (kalloc L m k sz) := by
  unfold kalloc
  by_cases hd : k.kalloc_disabled = true
  · rw [if_pos hd]
    exact .null
  rw [if_neg hd]
  by_cases hz : sz = 0 ∨ sz > 1 <<< MAX_ORDER
  · rw [if_pos hz]
    exact .null
  rw [if_neg hz]
  have hpos : 0 < sz := by omega
  have hmax : sz ≤ 2 ^ MAX_ORDER := by
    rw [Nat.one_shiftLeft] at hz
    omega
  rcases slab_kalloc_ok hk hm sz with he | ⟨k', K, i, c, he, hsz, hg⟩
  · rw [he]
    simp only [ne_eq, not_true_eq_false, if_false]
    rcases kalloc_ok hb sz with he' | ⟨b', kt', p, he', hb', ha, hn⟩
    · rw [he']
      exact .null
    · rw [he']
      exact .block hpos hmax hb' ha hn
  · rw [he]
    simp only [ne_eq, data_ne_zero, not_false_eq_true, if_true]
    exact .chunk hg hpos hsz

/-! ## The invariant is kept -/

theorem sysInv_init (hb : BuddyInv G G.top ∅ b) (hn : NoBuddies G b)
    (hr : ∀ x, (b.pgmap x).returned = false) : SysInv L G (Sys.init b) where
  buddy := ⟨G.top, hb⟩
  noBuddies := hn
  slabs := fun K i _ => by cases K <;> exact ⟨mk'_inv i, rfl⟩
  nodup := List.nodup_nil
  live := fun _ ha => (List.not_mem_nil ha).elim
  returned := fun p _ hp => absurd hp (by rw [show (Sys.init b).k.buddy = b from rfl, hr]; simp)

/-- A block that is live stays one when another block is allocated. -/
theorem BlockLive.allocated {o : ℕ} {a : ℕ × ℕ} {kt : ℕ → ℕ} (h : BlockLive G b a)
    (hb : BuddyInv G kt ∅ b) (ha : Allocated G p o b b') : BlockLive G b' a := by
  obtain ⟨q, hq, he, hr, ho, hsz⟩ := h
  have hf := ((hb.returned q hq).mp hr).1
  exact ⟨q, hq, he, (ha.returned q).mpr (Or.inl hr), by rw [ha.frame q hq hf, ho], hsz⟩

/-- A block that is live stays one when another block is freed. -/
theorem BlockLive.freed {o : ℕ} {a : ℕ × ℕ} {kt : ℕ → ℕ} (h : BlockLive G b a)
    (hb' : BuddyInv G kt ∅ b') (hf : Freed p o b b') (hne : a.1 ≠ blockPtr p) :
    BlockLive G b' a := by
  obtain ⟨q, hq, he, hr, ho, hsz⟩ := h
  have hr' : (b'.pgmap q).returned = true :=
    (hf.returned q).mpr ⟨hr, fun hc => hne (hc ▸ he)⟩
  have hf' := ((hb'.returned q hq).mp hr').1
  exact ⟨q, hq, he, hr', by rw [hf.frame q hf', ho], hsz⟩

theorem kalloc_step_inv (hL : L.Valid) (hG : ∀ p ∈ G.dom, InMemory p) (h : SysInv L G s)
    (hm : SlabHeaders L m) (hs : s.step L (.kalloc m sz) = some s') : SysInv L G s' := by
  obtain ⟨kt, hb⟩ := h.buddy
  have hres := kalloc_result hb h.slabs hm sz
  generalize hr : kalloc L m s.k sz = r at hres
  cases hres with
  | null =>
    rw [step_kalloc hr] at hs
    obtain rfl := Option.some.inj hs
    exact h
  | chunk hg hpos hsz =>
    next k' K i c =>
    rw [step_kalloc hr, if_neg data_ne_zero] at hs
    obtain rfl := Option.some.inj hs
    have hnew : L.data K i c ∉ s.live.map Prod.fst := by
      intro hc
      obtain ⟨a, ha, he⟩ := List.mem_map.mp hc
      rcases h.live a ha with ⟨q, hq, he', -⟩ | ⟨K', i', c', hi', hc', he', hu, -⟩
      · have h₁ := blockPtr_lt (hG q hq)
        have h₂ := data_ge (K := K) (i := i) (c := c) hL
        omega
      · obtain ⟨rfl, rfl, rfl⟩ := data_inj hL hg.slab_lt hi' hg.chunk_lt hc' (he.symm.trans he')
        exact hg.was_free hu
    refine
      { buddy := ⟨kt, by rw [hg.buddy]; exact hb⟩, noBuddies := by rw [hg.buddy]; exact h.noBuddies
        slabs := hg.slabs, nodup := List.nodup_cons.mpr ⟨hnew, h.nodup⟩, live := ?_, returned := ?_ }
    · intro a ha
      rcases List.mem_cons.mp ha with rfl | ha
      · exact Or.inr ⟨K, i, c, hg.slab_lt, hg.chunk_lt, rfl,
          (hg.used K i c).mpr (Or.inr ⟨rfl, rfl, rfl⟩), hpos, hsz⟩
      · rcases h.live a ha with hbl | ⟨K', i', c', hi', hc', he', hu, hsz'⟩
        · left
          rw [hg.buddy]
          exact hbl
        · exact Or.inr ⟨K', i', c', hi', hc', he', (hg.used K' i' c').mpr (Or.inl hu), hsz'⟩
    · intro p hp hr
      rw [hg.buddy] at hr
      obtain ⟨sz', hl⟩ := h.returned p hp hr
      exact ⟨sz', List.mem_cons_of_mem _ hl⟩
  | block hpos hsz hb' ha hn =>
    next b' kt' p =>
    have hne : blockPtr p ≠ 0 := (Nat.lt_of_lt_of_le (by decide) (Nat.le_add_right _ _)).ne'
    rw [step_kalloc hr, if_neg hne] at hs
    obtain rfl := Option.some.inj hs
    have hpf : (s.k.buddy.pgmap p).free = true :=
      ha.was_free p (le_refl _) (Nat.lt_add_of_pos_right (Nat.two_pow_pos _))
    have hnew : blockPtr p ∉ s.live.map Prod.fst := by
      intro hc
      obtain ⟨a, hal, he⟩ := List.mem_map.mp hc
      rcases h.live a hal with ⟨q, hq, he', hr, -⟩ | ⟨K', i', c', hi', hc', he', -⟩
      · obtain rfl := blockPtr_inj (he.symm.trans he')
        rw [((hb.returned p hq).mp hr).1] at hpf
        cases hpf
      · have h₁ := blockPtr_lt (hG p ha.mem)
        have h₂ := data_ge (K := K') (i := i') (c := c') hL
        omega
    refine
      { buddy := ⟨kt', hb'⟩, noBuddies := hn h.noBuddies, slabs := h.slabs
        nodup := List.nodup_cons.mpr ⟨hnew, h.nodup⟩, live := ?_, returned := ?_ }
    · intro a hal
      rcases List.mem_cons.mp hal with rfl | hal
      · exact Or.inl ⟨p, ha.mem, rfl, (ha.returned p).mpr (Or.inr rfl),
          ha.ord p (le_refl _) (Nat.lt_add_of_pos_right (Nat.two_pow_pos _)), hpos, hsz⟩
      · exact (h.live a hal).imp (fun hbl => hbl.allocated hb ha) id
    · intro q hq hr
      rcases (ha.returned q).mp hr with hr | rfl
      · obtain ⟨sz', hl⟩ := h.returned q hq hr
        exact ⟨sz', List.mem_cons_of_mem _ hl⟩
      · exact ⟨sz, List.mem_cons_self⟩

/-- Forgetting a live pointer that is not a block's keeps the invariant. -/
theorem SysInv.forget (h : SysInv L G s) (hptr : ∀ p ∈ G.dom, blockPtr p ≠ ptr) :
    SysInv L G { s with live := s.live.filter (·.1 ≠ ptr) } where
  buddy := h.buddy
  noBuddies := h.noBuddies
  slabs := h.slabs
  nodup := (List.filter_sublist.map Prod.fst).nodup h.nodup
  live := fun a ha => h.live a (List.mem_filter.mp ha).1
  returned := by
    intro p hp hr
    obtain ⟨sz, hl⟩ := h.returned p hp hr
    exact ⟨sz, List.mem_filter.mpr ⟨hl, by simpa using hptr p hp⟩⟩

/-- **`kfree` of a live block on the buddy path** frees it and keeps the invariant. -/
theorem kfree_block_inv (hG : ∀ p ∈ G.dom, InMemory p) (h : SysInv L G s)
    (hp : p ∈ G.dom) (hr : (s.k.buddy.pgmap p).returned = true)
    (hm : TakesBuddyPath m (blockPtr p)) :
    ∃ b', kfree L m s.k (blockPtr p) = some { s.k with buddy := b' } ∧
      Freed p ((s.k.buddy.pgmap p).ord - MIN_ORDER) s.k.buddy b' ∧
      SysInv L G { k := { s.k with buddy := b' }, live := s.live.filter (·.1 ≠ blockPtr p) } := by
  obtain ⟨kt, hb⟩ := h.buddy
  obtain ⟨b', kt', he, hb', hf, hn⟩ := kfree_ok hb hp hr
  rw [hb.order_eq hp] at hf
  refine ⟨b', by rw [kfree_block (hG p hp) hm, he], hf, ?_⟩
  refine
    { buddy := ⟨kt', hb'⟩, noBuddies := hn h.noBuddies, slabs := h.slabs
      nodup := (List.filter_sublist.map Prod.fst).nodup h.nodup, live := ?_, returned := ?_ }
  · intro a ha
    obtain ⟨hal, hne⟩ := List.mem_filter.mp ha
    exact (h.live a hal).imp (fun hbl => hbl.freed hb' hf (by simpa using hne)) id
  · intro q hq hrq
    obtain ⟨hrq, hne⟩ := (hf.returned q).mp hrq
    obtain ⟨sz, hl⟩ := h.returned q hq hrq
    exact ⟨sz, List.mem_filter.mpr ⟨hl, by simpa using fun hc => hne (blockPtr_inj hc)⟩⟩

theorem kfree_step_inv (hL : L.Valid) (hG : ∀ p ∈ G.dom, InMemory p) (h : SysInv L G s)
    (hm : SlabHeaders L m) (hl : (ptr, sz) ∈ s.live)
    (hs : s.step L (.kfree m ptr) = some s') : SysInv L G s' := by
  rcases h.live _ hl with ⟨p, hp, he, hr, -⟩ | ⟨K, i, c, hi, hc, he, -⟩
  · obtain rfl : ptr = blockPtr p := he
    by_cases hf : TakesBuddyPath m (blockPtr p)
    · obtain ⟨b', hk, -, hinv⟩ := kfree_block_inv hG h hp hr hf
      have hnf : ¬ Fooled m (blockPtr p) := fun hc => hc.2 hf
      rw [step_kfree hk, if_neg hnf] at hs
      obtain rfl := Option.some.inj hs
      exact hinv
    · have hfool : Fooled m (blockPtr p) := ⟨blockPtr_lt (hG p hp), hf⟩
      rcases kfree_fooled (k := s.k) hL (hG p hp) hf with hk | hk
      · rw [step_kfree_none hk] at hs
        cases hs
      · rw [step_kfree hk, if_pos hfool] at hs
        obtain rfl := Option.some.inj hs
        exact h
  · obtain rfl : ptr = L.data K i c := he
    have hge := data_ge (K := K) (i := i) (c := c) hL
    have hnf : ¬ Fooled m (L.data K i c) := fun hc => absurd hc.1 (Nat.not_lt.mpr hge)
    rw [step_kfree (kfree_data h.slabs hm hi hc), if_neg hnf] at hs
    obtain rfl := Option.some.inj hs
    refine h.forget fun p hp hc => ?_
    have := blockPtr_lt (hG p hp)
    omega

/-- **Every call keeps the invariant.** -/
theorem step_inv (hL : L.Valid) (hG : ∀ p ∈ G.dom, InMemory p) (h : SysInv L G s)
    (hok : Intact L s op) (hs : s.step L op = some s') : SysInv L G s' := by
  cases op with
  | kalloc m sz => exact kalloc_step_inv hL hG h hok hs
  | kfree m ptr =>
    obtain ⟨hm, sz, hl⟩ := hok
    exact kfree_step_inv hL hG h hm hl hs
  | disable_kalloc =>
    obtain rfl := Option.some.inj hs
    exact ⟨h.buddy, h.noBuddies, h.slabs, h.nodup, h.live, h.returned⟩
  | enable_kalloc =>
    obtain rfl := Option.some.inj hs
    exact ⟨h.buddy, h.noBuddies, h.slabs, h.nodup, h.live, h.returned⟩

/-- **The invariant holds in every reachable state.** -/
theorem SysInv.reach (hL : L.Valid) (hG : ∀ p ∈ G.dom, InMemory p) (hb : InitInv G b)
    (h : Reachable L b (Intact L) s) : SysInv L G s := by
  refine Reach.invariant ?_ ?_ h
  · rintro s rfl
    exact sysInv_init hb.toBuddyInv (noBuddies_of_top hb.toBuddyInv) hb.none_returned
  · intro s op s' hi hok hs
    exact step_inv hL hG hi hok hs

/-- An available page is a page of physical memory. -/
theorem inMemory_of_available {ranges : List MemRange} (hv : ValidRanges ranges)
    (hp : p ∈ availPages ranges) : InMemory p := by
  obtain ⟨r, hr, hpr⟩ := hp
  have hval := hv.valid r hr
  have hlast : r.last / PAGESIZE * PAGESIZE = r.last := Nat.div_mul_cancel hval.last_aligned
  refine le_trans ?_ hval.last_le
  rw [← hlast]
  exact Nat.mul_le_mul_right _ hpr.2

/-! ## A machine with two available pages -/

/-- Pages 1 and 2 are available, the rest is the kernel's. -/
def twoPages : List MemRange :=
  [⟨0, PAGESIZE, .mem_reserved⟩, ⟨PAGESIZE, 3 * PAGESIZE, .mem_available⟩,
    ⟨3 * PAGESIZE, MEMSIZE_PHYSICAL, .mem_kernel⟩]

/-- A place for the slabs in the kernel's pages. -/
def twoPagesLayout : Layout where
  smallslabs := KTEXT_BASE + 0x100000
  bigslabs := KTEXT_BASE + 0x102000

/-- Byte `o` of a chunk of a slab with index `ind`, as the constructor leaves it. -/
def headerByte (K : SlabKind) (ind o : ℕ) : UInt8 :=
  match o with
  | 0 => UInt8.ofNat K.chunksize
  | 1 => UInt8.ofNat (K.chunksize / 256)
  | 2 => UInt8.ofNat ind
  | 4 => UInt8.ofNat SLAB_CANARY
  | 5 => UInt8.ofNat (SLAB_CANARY / 256)
  | 6 => UInt8.ofNat (SLAB_CANARY / 65536)
  | _ => 0

/-- Memory after the constructors, zero below the slabs. -/
def bootMem (L : Layout) : Mem := fun a =>
  if L.bigslabs ≤ a then
    headerByte .BIG_SLAB ((a - L.bigslabs) / SlabKind.BIG_SLAB.sizeof)
      (((a - L.bigslabs) % SlabKind.BIG_SLAB.sizeof - SlabKind.chunksOffset) % BIG_CHUNKSIZE)
  else if L.smallslabs ≤ a then
    headerByte .SMALL_SLAB ((a - L.smallslabs) / SlabKind.SMALL_SLAB.sizeof)
      (((a - L.smallslabs) % SlabKind.SMALL_SLAB.sizeof - SlabKind.chunksOffset) % SMALL_CHUNKSIZE)
  else 0

theorem twoPages_valid : ValidRanges twoPages where
  valid := by
    intro r hr
    simp [available, twoPages] at hr
    subst hr
    exact ⟨by decide, by decide, by decide, by decide⟩
  disjoint := by simp [available, twoPages]

theorem twoPagesLayout_valid : twoPagesLayout.Valid := ⟨by decide, by decide, by decide⟩

theorem bootMem_headers : SlabHeaders twoPagesLayout (bootMem twoPagesLayout) := by
  intro K
  cases K <;> decide +kernel

/-- The tables after `init_kalloc` on that machine. -/
def twoPagesBuddy : Buddy := carveStep 1 1 .zero

theorem twoPages_init : init_kalloc twoPages .zero = .ok twoPagesBuddy := by
  have hord : 1 + MIN_ORDER = largest_fitting_ord (2 * PAGESIZE) := by
    rw [largest_fitting_ord_eq_log (by decide)]
    exact (Nat.log_pow (b := 2) (by decide) 13).symm
  have hc : carve (1 * PAGESIZE) (2 * PAGESIZE) .zero = .ok twoPagesBuddy := by
    rw [carve_succ initInv_zero (by decide) hord (by decide) (Set.notMem_empty _)]
    rw [carve, if_pos (by decide)]
    rfl
  have hr : carve PAGESIZE (3 * PAGESIZE - PAGESIZE) .zero = .ok twoPagesBuddy := hc
  simp only [twoPages, init_kalloc]
  rw [if_neg (by decide), if_pos trivial, hr]
  rfl

/-- The tables after the first page has been allocated: the root is halved. -/
def twoPagesFirst : Buddy :=
  let b := chopStep 1 0 (twoPagesBuddy.pop_front 1).1
  markAllocated 1 0 { b with pgmap := updPages (fun it => { it with ord := MIN_ORDER }) 1 1 b.pgmap }

/-- The tables after both pages have been allocated. -/
def twoPagesSecond : Buddy := markAllocated 2 0 (twoPagesFirst.pop_front 0).1

theorem order_PAGESIZE : order PAGESIZE = MIN_ORDER := by
  rw [order_eq_clog (by decide)]
  exact Nat.clog_pow 2 12 (by decide)

theorem twoPages_first : twoPagesBuddy.kalloc PAGESIZE = .ok (twoPagesFirst, some 1) := by
  have hnext : twoPagesBuddy.next_order MIN_ORDER = some (MIN_ORDER + 1) := by
    rw [Buddy.next_order, if_pos (by decide), if_neg (by decide)]
  have hempty : twoPagesBuddy.free_blocks (MIN_ORDER - MIN_ORDER) = [] := by decide
  simp only [Buddy.kalloc, order_PAGESIZE, ge_iff_le, le_refl, if_true, Buddy.take, hempty, hnext]
  rfl

theorem twoPages_second : twoPagesFirst.kalloc PAGESIZE = .ok (twoPagesSecond, some 2) := by
  have hne : ¬ twoPagesFirst.free_blocks (MIN_ORDER - MIN_ORDER) = [] := by decide
  simp only [Buddy.kalloc, order_PAGESIZE, ge_iff_le, le_refl, if_true, Buddy.take, hne, if_false]
  rfl

/-- A request for a page goes to the buddy allocator. -/
theorem step_page (hd : s.k.kalloc_disabled = false)
    (h : s.k.buddy.kalloc PAGESIZE = .ok (b', some p)) :
    s.step L (.kalloc m PAGESIZE) =
      some { k := { s.k with buddy := b' }, live := (blockPtr p, PAGESIZE) :: s.live } := by
  have hne : blockPtr p ≠ 0 := (Nat.lt_of_lt_of_le (by decide) (Nat.le_add_right _ _)).ne'
  have hslab : slab_kalloc L m s.k PAGESIZE = some (s.k, 0) := if_neg (by decide)
  have hk : kalloc L m s.k PAGESIZE = some ({ s.k with buddy := b' }, blockPtr p) := by
    rw [kalloc, if_neg (by simp [hd]), if_neg (by decide), hslab]
    simp only [ne_eq, not_true_eq_false, if_false, h]
    rfl
  rw [step_kalloc hk, if_neg hne]

/-- The state after the first page has been allocated. -/
def twoPagesMid : Sys where
  k := { Kstate.init twoPagesBuddy with buddy := twoPagesFirst }
  live := [(blockPtr 1, PAGESIZE)]

/-- The state after both pages have been allocated. -/
def twoPagesSys : Sys where
  k := { Kstate.init twoPagesBuddy with buddy := twoPagesSecond }
  live := [(blockPtr 2, PAGESIZE), (blockPtr 1, PAGESIZE)]

theorem twoPagesSys_reachable :
    Reachable twoPagesLayout twoPagesBuddy (Correct twoPagesLayout) twoPagesSys := by
  have h₁ : (Sys.init twoPagesBuddy).step twoPagesLayout (.kalloc (bootMem twoPagesLayout) PAGESIZE)
      = some twoPagesMid := step_page rfl twoPages_first
  have h₂ : twoPagesMid.step twoPagesLayout (.kalloc (bootMem twoPagesLayout) PAGESIZE) =
      some twoPagesSys := step_page rfl twoPages_second
  exact .step (a := .kalloc (bootMem twoPagesLayout) PAGESIZE)
    (.step (a := .kalloc (bootMem twoPagesLayout) PAGESIZE) (.init rfl) ⟨bootMem_headers, trivial⟩ h₁)
    ⟨bootMem_headers, trivial⟩ h₂

end Chickadee.Alloc
