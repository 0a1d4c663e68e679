import Chickadee.Alloc.Consistent
import Chickadee.Alloc.Split

/-!
# The receive buffers of the network driver

`rx_init` asks for eight bytes for each receive descriptor and tells the device that the buffers have 2048. A
chunk of a slab has at most 504; there is room for a frame only where `kalloc` has no chunk left and takes a page.
-/

namespace Chickadee.Net

open Lib Alloc

abbrev RX_RING_SIZE : ℕ := 16

/-- `E1000_RCTL_SZ_2048` -/
abbrev RX_BUFSIZE : ℕ := 2048

/-- `sizeof(uint64_t)` -/
abbrev RX_REQUEST : ℕ := 8

/-- A receive descriptor: the memory it was given, and `addr`, where the device puts a frame. -/
structure rx_desc where
  ptr : ℕ
  addr : ℕ

/-- The allocator, `rxring_`, and physical memory. -/
structure Nic where
  sys : Sys
  rxring_ : List rx_desc
  pmem : ℕ → UInt8

/--
The first `n` turns of the loop of `rx_init`, where `m i` is what memory holds at turn `i`. `none` means that an
assertion failed: `kptr2pa` has one, which the null pointer does not meet.
-/
def rx_init (L : Layout) (m : ℕ → Alloc.Mem) (s : Sys) : ℕ → Option (Sys × List rx_desc)
  | 0 => some (s, [])
  | n + 1 => do
    let r ← rx_init L m s n
    let a ← kalloc L (m n) r.1.k RX_REQUEST
    let addr ← kptr2pa a.2
    some (⟨a.1, (a.2, RX_REQUEST) :: r.1.live⟩, r.2 ++ [⟨a.2, addr⟩])

/-- A call of the allocator, or a frame that the device delivers into the buffer of descriptor `n`. -/
inductive NicEvent
  | call (op : Op)
  | frame (n : ℕ) (data : List UInt8)

/-- The frame in memory. -/
def deliver (addr : ℕ) (data : List UInt8) (pmem : ℕ → UInt8) : ℕ → UInt8 := fun a =>
  if addr ≤ a ∧ a < addr + data.length then data.getD (a - addr) 0 else pmem a

/-- The descriptors stay as `rx_init` has left them: `rx_package` clears their status and nothing else. -/
def Nic.step (L : Layout) (d : Nic) : NicEvent → Option Nic
  | .call op => (d.sys.step L op).map fun s => { d with sys := s }
  | .frame n data =>
    match d.rxring_[n]? with
    | none => none
    | some desc =>
      if data.length ≤ RX_BUFSIZE then some { d with pmem := deliver desc.addr data d.pmem } else none

/-- Only live pointers are freed, and those of the driver, which it never frees, are not. -/
def Nic.Allowed (L : Layout) (d : Nic) : NicEvent → Prop
  | .call op => Intact L d.sys op ∧ ∀ m ptr, op = .kfree m ptr → ∀ desc ∈ d.rxring_, ptr ≠ desc.ptr
  | .frame _ _ => True

/-- The states reached from that after `rx_init`. -/
def RxReachable (L : Layout) (d₀ d : Nic) : Prop :=
  Reach (· = d₀) (fun d e d' => d.step L e = some d') (Nic.Allowed L) d

/-- The bytes that the device may write for a descriptor. -/
def rx_desc.buffer (desc : rx_desc) : Set ℕ := Set.Ico desc.addr (desc.addr + RX_BUFSIZE)

/--
Every buffer lies in the memory that was allocated for it, and is disjoint from the other buffers and from all
other live allocations.
-/
def Apart (L : Layout) (d : Nic) : Prop :=
  ∀ (n : ℕ) (desc : rx_desc), d.rxring_[n]? = some desc → desc.buffer ⊆ region L (desc.ptr, RX_REQUEST) ∧
    (∀ (n' : ℕ) (desc' : rx_desc), n' ≠ n → d.rxring_[n']? = some desc' → Disjoint desc.buffer desc'.buffer) ∧
    ∀ a ∈ d.sys.live, a.1 ≠ desc.ptr → Disjoint desc.buffer (region L a)

variable {L : Layout} {G : Grid} {m : Alloc.Mem} {k k' : Kstate} {s s' : Sys} {d d₀ : Nic} {ptr n : ℕ}

/-! ## One request -/

/-- **Where a request of eight bytes ends up.** -/
theorem kalloc_request (hL : L.Valid) (hG : ∀ p ∈ G.dom, InMemory p) (h : SysInv L G s) (hm : SlabHeaders L m)
    (hk : kalloc L m s.k RX_REQUEST = some (k', ptr)) (hne : ptr ≠ 0) :
    NoChunk s.k RX_REQUEST ∧ ptr < KTEXT_BASE ∧ NoChunk k' RX_REQUEST ∨
      ¬NoChunk s.k RX_REQUEST ∧ KTEXT_BASE ≤ ptr := by
  obtain ⟨kt, hb⟩ := h.buddy
  have hsize : ¬(RX_REQUEST = 0 ∨ RX_REQUEST > 1 <<< MAX_ORDER) := by decide
  rw [kalloc] at hk
  by_cases hd : s.k.kalloc_disabled = true
  · rw [if_pos hd] at hk
    cases hk
    exact absurd rfl hne
  rw [if_neg hd, if_neg hsize] at hk
  rcases slab_kalloc_ok h.slabs hm RX_REQUEST with hnull | ⟨k₁, K, i, c, hgive, hle, hg⟩
  · -- no chunk: the buddy allocator gives a page
    have hno := slab_kalloc_null h.slabs hnull
    rw [hnull] at hk
    simp only [ne_eq, not_true_eq_false, if_false] at hk
    rcases kalloc_ok hb RX_REQUEST with he | ⟨b', kt', p, he, -, ha, -⟩
    · rw [he] at hk
      cases hk
      exact absurd rfl hne
    · rw [he] at hk
      cases hk
      exact .inl ⟨hno, blockPtr_lt (hG p ha.mem), hno⟩
  · rw [hgive] at hk
    simp only [ne_eq, data_ne_zero, not_false_eq_true, if_true] at hk
    cases hk
    exact .inr ⟨fun hno => hg.was_free (hno K hle i hg.slab_lt c hg.chunk_lt), data_ge hL⟩

theorem kptr2pa_ne_zero {addr : ℕ} (h : kptr2pa ptr = some addr) : ptr ≠ 0 := by
  rintro rfl
  cases h

/-- A turn of the loop is a call of `kalloc`. -/
theorem step_request {addr : ℕ} (hk : kalloc L m s.k RX_REQUEST = some (k', ptr)) (ha : kptr2pa ptr = some addr) :
    s.step L (.kalloc m RX_REQUEST) = some ⟨k', (ptr, RX_REQUEST) :: s.live⟩ := by
  rw [step_kalloc hk, if_neg (kptr2pa_ne_zero ha)]

/-- One more turn of the loop. -/
theorem rx_init_succ {m : ℕ → Alloc.Mem} {ring : List rx_desc} (h : rx_init L m s (n + 1) = some (s', ring)) :
    ∃ s₁ ring₁ k' ptr addr, rx_init L m s n = some (s₁, ring₁) ∧ kalloc L (m n) s₁.k RX_REQUEST = some (k', ptr) ∧
      kptr2pa ptr = some addr ∧ s' = ⟨k', (ptr, RX_REQUEST) :: s₁.live⟩ ∧ ring = ring₁ ++ [⟨ptr, addr⟩] := by
  rw [rx_init] at h
  obtain ⟨⟨s₁, ring₁⟩, hfirst, h⟩ := Option.bind_eq_some_iff.mp h
  obtain ⟨⟨k', ptr⟩, hk, h⟩ := Option.bind_eq_some_iff.mp h
  obtain ⟨addr, ha, h⟩ := Option.bind_eq_some_iff.mp h
  obtain ⟨rfl, rfl⟩ := Prod.mk.inj (Option.some.inj h)
  exact ⟨s₁, ring₁, k', ptr, addr, hfirst, hk, ha, rfl, rfl⟩

/-! ## The ring -/

/-- The descriptors have live memory of their own. -/
structure RingInv (L : Layout) (G : Grid) (s : Sys) (ring : List rx_desc) : Prop where
  sys : SysInv L G s
  live : ∀ desc ∈ ring, (desc.ptr, RX_REQUEST) ∈ s.live
  addr : ∀ desc ∈ ring, kptr2pa desc.ptr = some desc.addr
  nodup : (ring.map rx_desc.ptr).Nodup

theorem RingInv.nil (h : SysInv L G s) : RingInv L G s [] :=
  ⟨h, fun _ hd => absurd hd List.not_mem_nil, fun _ hd => absurd hd List.not_mem_nil, List.nodup_nil⟩

/-- **What `rx_init` leaves behind.** -/
theorem rx_init_inv (hL : L.Valid) (hG : ∀ p ∈ G.dom, InMemory p) (h : SysInv L G s) {m : ℕ → Alloc.Mem}
    (hm : ∀ i, SlabHeaders L (m i)) {ring : List rx_desc} (hinit : rx_init L m s n = some (s', ring)) :
    RingInv L G s' ring ∧ ring.length = n ∧ (NoChunk s.k RX_REQUEST → NoChunk s'.k RX_REQUEST) ∧
      ∀ desc ∈ ring, (NoChunk s.k RX_REQUEST → desc.ptr < KTEXT_BASE) := by
  induction n generalizing s' ring with
  | zero =>
    obtain ⟨rfl, rfl⟩ := Prod.mk.inj (Option.some.inj hinit)
    exact ⟨.nil h, rfl, id, fun _ hd => absurd hd List.not_mem_nil⟩
  | succ n ih =>
    obtain ⟨s₁, ring₁, k', ptr, addr, hfirst, hk, ha, rfl, rfl⟩ := rx_init_succ hinit
    obtain ⟨hring, hlen, hkeep, hlow⟩ := ih hfirst
    have hsys := kalloc_step_inv hL hG hring.sys (hm n) (step_request hk ha)
    have hnew : ptr ∉ s₁.live.map Prod.fst := (List.nodup_cons.mp hsys.nodup).1
    have hresult := kalloc_request hL hG hring.sys (hm n) hk (kptr2pa_ne_zero ha)
    refine ⟨⟨hsys, fun desc hd => ?_, fun desc hd => ?_, ?_⟩, ?_, fun hno => ?_, fun desc hd hno => ?_⟩
    · rcases List.mem_append.mp hd with hd | hd
      · exact List.mem_cons_of_mem _ (hring.live desc hd)
      · obtain rfl := List.mem_singleton.mp hd
        exact List.mem_cons_self
    · rcases List.mem_append.mp hd with hd | hd
      · exact hring.addr desc hd
      · obtain rfl := List.mem_singleton.mp hd
        exact ha
    · rw [List.map_append, List.nodup_append]
      refine ⟨hring.nodup, List.nodup_singleton _, fun q hq r hr hqr => hnew ?_⟩
      obtain ⟨desc, hd, rfl⟩ := List.mem_map.mp hq
      obtain rfl := List.mem_singleton.mp hr
      rw [← hqr]
      exact List.mem_map.mpr ⟨_, hring.live desc hd, rfl⟩
    · rw [List.length_append, hlen]
      rfl
    · rcases hresult with ⟨-, -, hrest⟩ | ⟨hchunk, -⟩
      · exact hrest
      · exact absurd (hkeep hno) hchunk
    · rcases List.mem_append.mp hd with hd | hd
      · exact hlow desc hd hno
      · obtain rfl := List.mem_singleton.mp hd
        rcases hresult with ⟨-, hlt, -⟩ | ⟨hchunk, -⟩
        · exact hlt
        · exact absurd (hkeep hno) hchunk

/-- The first descriptor gets a chunk if there is one. -/
theorem rx_init_chunk (hL : L.Valid) (hG : ∀ p ∈ G.dom, InMemory p) (h : SysInv L G s) {m : ℕ → Alloc.Mem}
    (hm : ∀ i, SlabHeaders L (m i)) (hchunk : ¬NoChunk s.k RX_REQUEST) {ring : List rx_desc}
    (hinit : rx_init L m s (n + 1) = some (s', ring)) : ∃ desc, ring[0]? = some desc ∧ KTEXT_BASE ≤ desc.ptr := by
  induction n generalizing s' ring with
  | zero =>
    obtain ⟨s₁, ring₁, k', ptr, addr, hfirst, hk, ha, rfl, rfl⟩ := rx_init_succ hinit
    obtain ⟨rfl, rfl⟩ := Prod.mk.inj (Option.some.inj hfirst)
    refine ⟨⟨ptr, addr⟩, rfl, ?_⟩
    rcases kalloc_request hL hG h (hm 0) hk (kptr2pa_ne_zero ha) with ⟨hno, -⟩ | ⟨-, hge⟩
    · exact absurd hno hchunk
    · exact hge
  | succ n ih =>
    obtain ⟨s₁, ring₁, k', ptr, addr, hfirst, hk, ha, rfl, rfl⟩ := rx_init_succ hinit
    obtain ⟨desc, hget, hge⟩ := ih hfirst
    refine ⟨desc, ?_, hge⟩
    rw [List.getElem?_append_left (List.getElem?_eq_some_iff.mp hget).1]
    exact hget

/-- **Every call and every frame keeps the ring.** -/
theorem RingInv.step (hL : L.Valid) (hG : ∀ p ∈ G.dom, InMemory p) (h : RingInv L G d.sys d.rxring_) {e : NicEvent}
    (hok : d.Allowed L e) {d' : Nic} (hs : d.step L e = some d') :
    RingInv L G d'.sys d'.rxring_ ∧ d'.rxring_ = d.rxring_ := by
  cases e with
  | frame i data =>
    unfold Nic.step at hs
    dsimp only at hs
    split at hs
    · cases hs
    · split at hs
      · obtain rfl := Option.some.inj hs
        exact ⟨h, rfl⟩
      · cases hs
  | call op =>
    obtain ⟨s₁, hstep, rfl⟩ := Option.map_eq_some_iff.mp hs
    obtain ⟨hintact, hkeep⟩ := hok
    refine ⟨⟨step_inv hL hG h.sys hintact hstep, fun desc hd => ?_, h.addr, h.nodup⟩, rfl⟩
    have hlive := h.live desc hd
    dsimp only
    cases op with
    | kalloc m sz =>
      unfold Sys.step at hstep
      dsimp only at hstep
      split at hstep
      · cases hstep
      · obtain rfl := Option.some.inj hstep
        dsimp only
        split
        · exact hlive
        · exact List.mem_cons_of_mem _ hlive
    | kfree m ptr =>
      unfold Sys.step at hstep
      dsimp only at hstep
      split at hstep
      · cases hstep
      · obtain rfl := Option.some.inj hstep
        dsimp only
        split
        · exact hlive
        · refine List.mem_filter.mpr ⟨hlive, ?_⟩
          simpa using (hkeep m ptr rfl desc hd).symm
    | disable_kalloc =>
      obtain rfl := Option.some.inj hstep
      exact hlive
    | enable_kalloc =>
      obtain rfl := Option.some.inj hstep
      exact hlive

theorem RingInv.reach (hL : L.Valid) (hG : ∀ p ∈ G.dom, InMemory p) (h : RingInv L G d₀.sys d₀.rxring_)
    (hr : RxReachable L d₀ d) : RingInv L G d.sys d.rxring_ ∧ d.rxring_ = d₀.rxring_ := by
  refine Reach.invariant (P := fun d => RingInv L G d.sys d.rxring_ ∧ d.rxring_ = d₀.rxring_) ?_ ?_ hr
  · rintro d rfl
    exact ⟨h, rfl⟩
  · rintro d e d' ⟨hd, hring⟩ hok hs
    obtain ⟨hinv, hsame⟩ := hd.step hL hG hok hs
    exact ⟨hinv, hsame.trans hring⟩

/-! ## Where the buffers are -/

/-- A page has room for a frame, a chunk has not. -/
theorem bufsize_le_capacity : RX_BUFSIZE ≤ capacity L (ptr, RX_REQUEST) ↔ ptr < KTEXT_BASE := by
  unfold capacity
  dsimp only
  by_cases hlt : ptr < KTEXT_BASE
  · rw [if_pos hlt]
    refine iff_of_true (le_trans ?_ (Nat.pow_le_pow_right (by decide) (Nat.le_add_left MIN_ORDER _))) hlt
    decide
  · rw [if_neg hlt]
    refine iff_of_false ?_ hlt
    split <;> decide

/-- The buffer is in its memory if that is a page. -/
theorem buffer_subset {desc : rx_desc} (ha : kptr2pa desc.ptr = some desc.addr) :
    desc.buffer ⊆ region L (desc.ptr, RX_REQUEST) ↔ desc.ptr < KTEXT_BASE := by
  have hregion : ∀ x, x ∈ region L (desc.ptr, RX_REQUEST) ↔
      desc.addr ≤ x ∧ x < desc.addr + capacity L (desc.ptr, RX_REQUEST) := by
    intro x
    simp only [region, Set.mem_ofPred_eq, ha, Option.some.injEq, exists_eq_left']
  rw [← bufsize_le_capacity (L := L)]
  constructor
  · intro hsub
    have hlast : desc.addr + (RX_BUFSIZE - 1) ∈ desc.buffer := ⟨Nat.le_add_right _ _, by simp only [RX_BUFSIZE]; omega⟩
    have hin := ((hregion _).mp (hsub hlast)).2
    omega
  · rintro hle x ⟨hx, hx'⟩
    exact (hregion x).mpr ⟨hx, by omega⟩

/-- **The buffers are apart if each of them is in its memory.** -/
theorem RingInv.apart {ranges : List MemRange} (hL : L.Valid) (hout : L.Outside ranges)
    (hG : ∀ p ∈ G.dom, InMemory p) (hdom : G.dom = availPages ranges) (h : RingInv L G d.sys d.rxring_) :
    Apart L d ↔ ∀ desc ∈ d.rxring_, desc.ptr < KTEXT_BASE := by
  constructor
  · intro hapart desc hd
    obtain ⟨n, hn⟩ := List.mem_iff_getElem?.mp hd
    exact (buffer_subset (h.addr desc hd)).mp (hapart n desc hn).1
  · intro hlow n desc hn
    have hsub : ∀ desc ∈ d.rxring_, desc.buffer ⊆ region L (desc.ptr, RX_REQUEST) := fun desc hd =>
      (buffer_subset (h.addr desc hd)).mpr (hlow desc hd)
    have hd := List.mem_of_getElem? hn
    refine ⟨hsub desc hd, fun n' desc' hne hn' => ?_, fun a ha hne => ?_⟩
    · have hd' := List.mem_of_getElem? hn'
      have hptr : desc.ptr ≠ desc'.ptr := by
        intro heq
        have hlt : n' < (d.rxring_.map rx_desc.ptr).length := by
          rw [List.length_map]
          exact (List.getElem?_eq_some_iff.mp hn').1
        refine hne ((List.getElem?_inj hlt h.nodup).mp ?_)
        rw [List.getElem?_map, List.getElem?_map, hn, hn', Option.map_some, Option.map_some, heq]
      exact (regions_disjoint hL hout hG hdom h.sys (h.live desc hd) (h.live desc' hd') hptr).mono (hsub desc hd)
        (hsub desc' hd')
    · exact (regions_disjoint hL hout hG hdom h.sys (h.live desc hd) ha hne.symm).mono_left (hsub desc hd)

/-- Where the buffers are apart, a frame changes no other memory that is in use. -/
theorem frame_keeps (h : Apart L d) {data : List UInt8} {d' : Nic} (hs : d.step L (.frame n data) = some d')
    {desc : rx_desc} (hn : d.rxring_[n]? = some desc) {a : ℕ × ℕ} (ha : a ∈ d.sys.live) (hne : a.1 ≠ desc.ptr) :
    ∀ x ∈ region L a, d'.pmem x = d.pmem x := by
  intro x hx
  obtain ⟨-, -, hlive⟩ := h n desc hn
  unfold Nic.step at hs
  simp only [hn] at hs
  split at hs
  · next hlen =>
    obtain rfl := Option.some.inj hs
    refine if_neg fun hin => ?_
    have hbuf : x ∈ desc.buffer := ⟨hin.1, by omega⟩
    exact Set.disjoint_left.mp (hlive a ha hne) hbuf hx
  · cases hs

/-- What a run of the allocator and `rx_init` leave behind. -/
theorem rx_init_ring {ranges : List MemRange} (hv : ValidRanges ranges) {b₀ : Buddy}
    (hinit : init_kalloc ranges .zero = .ok b₀) (hL : L.Valid) (hr : Reachable L b₀ (Intact L) s)
    {m : ℕ → Alloc.Mem} (hm : ∀ i, SlabHeaders L (m i)) {ring : List rx_desc}
    (hrx : rx_init L m s (n + 1) = some (s', ring)) :
    ∃ G : Grid, G.dom = availPages ranges ∧ (∀ p ∈ G.dom, InMemory p) ∧ RingInv L G s' ring ∧
      ((∀ desc ∈ ring, desc.ptr < KTEXT_BASE) ↔ NoChunk s.k RX_REQUEST) := by
  obtain ⟨b, G, hb, hi, hdom⟩ := init_kalloc_ok hv
  obtain rfl : b = b₀ := Except.ok.inj (hb.symm.trans hinit)
  have hG : ∀ p ∈ G.dom, InMemory p := fun p hp => inMemory_of_available hv (hdom ▸ hp)
  have h : SysInv L G s := .reach hL hG hi hr
  obtain ⟨hring, -, -, hlow⟩ := rx_init_inv hL hG h hm hrx
  refine ⟨G, hdom, hG, hring, fun hall => ?_, fun hno desc hd => hlow desc hd hno⟩
  by_contra hchunk
  obtain ⟨desc, hget, hge⟩ := rx_init_chunk hL hG h hm hchunk hrx
  exact absurd (hall desc (List.mem_of_getElem? hget)) (Nat.not_lt.mpr hge)

/--
**The receive buffers are apart, from `rx_init` on and whatever frames come, if no slab had a chunk to give.** The
allocator has any history before, and goes on to be used.
-/
theorem apart_iff {ranges : List MemRange} (hv : ValidRanges ranges) {b₀ : Buddy}
    (hinit : init_kalloc ranges .zero = .ok b₀) (hL : L.Valid) (hout : L.Outside ranges)
    (hr : Reachable L b₀ (Intact L) s) {m : ℕ → Alloc.Mem} (hm : ∀ i, SlabHeaders L (m i)) {ring : List rx_desc}
    (hrx : rx_init L m s RX_RING_SIZE = some (s', ring)) {pmem : ℕ → UInt8}
    (hd : RxReachable L ⟨s', ring, pmem⟩ d) : Apart L d ↔ NoChunk s.k RX_REQUEST := by
  obtain ⟨G, hdom, hG, hring, hlow⟩ := rx_init_ring hv hinit hL hr hm hrx
  obtain ⟨hinv, hsame⟩ := RingInv.reach hL hG hring hd
  rw [hinv.apart hL hout hG hdom, hsame]
  exact hlow

/-! ## A machine that has just started -/

theorem twoPages_rx : (rx_init twoPagesLayout (fun _ => bootMem twoPagesLayout) (Sys.init twoPagesBuddy)
    RX_RING_SIZE).isSome = true := by
  decide +kernel

theorem apart_iff_twoPages : ∃ s' ring,
    rx_init twoPagesLayout (fun _ => bootMem twoPagesLayout) (Sys.init twoPagesBuddy) RX_RING_SIZE = some (s', ring) ∧
      (Apart twoPagesLayout ⟨s', ring, fun _ => 0⟩ ↔ NoChunk (Sys.init twoPagesBuddy).k RX_REQUEST) := by
  obtain ⟨⟨s', ring⟩, hrx⟩ := Option.isSome_iff_exists.mp twoPages_rx
  refine ⟨s', ring, hrx, ?_⟩
  exact apart_iff twoPages_valid twoPages_init twoPagesLayout_valid twoPagesLayout_outside (.init rfl)
    (fun _ => bootMem_headers) hrx (.init rfl)

/-- **The buffers are not apart**: the first sixteen chunks are free, and too small. -/
theorem apart_fails : ∃ s' ring,
    rx_init twoPagesLayout (fun _ => bootMem twoPagesLayout) (Sys.init twoPagesBuddy) RX_RING_SIZE = some (s', ring) ∧
      ¬Apart twoPagesLayout ⟨s', ring, fun _ => 0⟩ := by
  obtain ⟨⟨s', ring⟩, hrx⟩ := Option.isSome_iff_exists.mp twoPages_rx
  refine ⟨s', ring, hrx, fun hapart => ?_⟩
  obtain ⟨G, hdom, hG, hring, hlow⟩ := rx_init_ring twoPages_valid twoPages_init twoPagesLayout_valid (.init rfl)
    (fun _ => bootMem_headers) hrx
  have hall := (RingInv.apart (d := ⟨s', ring, fun _ => 0⟩) twoPagesLayout_valid twoPagesLayout_outside hG hdom
    hring).mp hapart
  have hused : ((Sys.init twoPagesBuddy).k.slabs .SMALL_SLAB 0).free_chunks[0]? = some false :=
    hlow.mp hall .SMALL_SLAB (by decide) 0 (by decide) 0 (by decide)
  exact absurd hused (by decide)

end Chickadee.Net
