import Chickadee.Alloc.AllocRun

/-!
# What the slabs count

A slab counts the chunks it has handed out, and no call ever takes one back: `kfree` reads the
two-byte index of a chunk as an `int` and finds no slab with that index (`kfree_data`). As long as no
chunk is passed to `kfree`, the count is the number of live chunks (`slab_counts`); one call suffices
to lose a chunk (`chunk_lost`).
-/

namespace Chickadee.Alloc

open Chickadee.Lib

/-- The number of chunks of slab `i` that are live. -/
def liveChunks (L : Layout) (s : Sys) (K : SlabKind) (i : ℕ) : ℕ :=
  (List.range K.num).countP fun c => L.data K i c ∈ s.live.map Prod.fst

/--
The count, the flags and the state of a slab agree with its live chunks, and a slab that is not full
hands out a chunk that is not live.
-/
structure SlabExact (L : Layout) (s : Sys) (K : SlabKind) (i : ℕ) : Prop where
  nallocs : (s.k.slabs K i).nallocs_ = liveChunks L s K i
  flags : (s.k.slabs K i).free_chunks.count false = liveChunks L s K i
  full : (s.k.slabs K i).state = .SLAB_FULL ↔ liveChunks L s K i = K.num
  free : (s.k.slabs K i).state = .SLAB_FREE ↔ liveChunks L s K i = 0
  partial_ : (s.k.slabs K i).state = .SLAB_PARTIAL ↔
    0 < liveChunks L s K i ∧ liveChunks L s K i < K.num
  give : ∀ m, SlabHeaders L m → (s.k.slabs K i).state ≠ .SLAB_FULL →
    ∃ c < K.num, ∃ s', (s.k.slabs K i).give K m (L.slab K i) =
      some (s', chunkAddr K (L.slab K i) c) ∧ L.data K i c ∉ s.live.map Prod.fst

/-- No chunk is passed to `kfree`. -/
def NoChunkFree (L : Layout) (s : Sys) (op : Op) : Prop :=
  Intact L s op ∧ match op with
    | .kfree _ ptr => ptr < KTEXT_BASE
    | _ => True

variable {L : Layout} {G : Grid} {m : Mem} {s s' : Sys} {op : Op} {K : SlabKind} {i c sz ptr : ℕ}

/-- Every chunk that is handed out is live. -/
def UsedLive (L : Layout) (s : Sys) : Prop :=
  ∀ K : SlabKind, ∀ i < K.count, ∀ c, ChunkUsed s.k K i c → L.data K i c ∈ s.live.map Prod.fst

/-! ## A step keeps the chunks live -/

theorem kalloc_usedLive {kt : ℕ → ℕ} (hb : BuddyInv G kt ∅ s.k.buddy) (hk : SlabsInv s.k)
    (hm : SlabHeaders L m) (hu : UsedLive L s) (hs : s.step L (.kalloc m sz) = some s') :
    UsedLive L s' := by
  have hres := kalloc_result hb hk hm sz
  generalize hr : kalloc L m s.k sz = r at hres
  cases hres with
  | null =>
    rw [step_kalloc hr] at hs
    obtain rfl := Option.some.inj hs
    exact hu
  | chunk hg =>
    rw [step_kalloc hr, if_neg data_ne_zero] at hs
    obtain rfl := Option.some.inj hs
    intro K' i' hi' c' hc'
    rcases (hg.used K' i' c').mp hc' with hc' | ⟨rfl, rfl, rfl⟩
    · exact List.mem_cons_of_mem _ (hu K' i' hi' c' hc')
    · exact List.mem_cons_self
  | block =>
    rw [step_kalloc hr] at hs
    obtain rfl := Option.some.inj hs
    intro K' i' hi' c' hc'
    have hmem := hu K' i' hi' c' hc'
    show L.data K' i' c' ∈ List.map Prod.fst (if _ then _ else _)
    split
    · exact hmem
    · exact List.mem_cons_of_mem _ hmem

/-- `kfree` leaves the slabs alone, and here it forgets no chunk. -/
theorem kfree_usedLive (hL : L.Valid) (hG : ∀ p ∈ G.dom, InMemory p) (h : SysInv L G s)
    (hl : (ptr, sz) ∈ s.live) (hptr : ptr < KTEXT_BASE) (hu : UsedLive L s)
    (hs : s.step L (.kfree m ptr) = some s') : UsedLive L s' := by
  have hkeep : ∀ k' : Kstate, (∀ K i c, ChunkUsed k' K i c ↔ ChunkUsed s.k K i c) →
      UsedLive L { k := k', live := s.live.filter (·.1 ≠ ptr) } := by
    intro k' hk' K i hi c hc
    obtain ⟨a, ha, he⟩ := List.mem_map.mp (hu K i hi c ((hk' K i c).mp hc))
    have hge := data_ge (K := K) (i := i) (c := c) hL
    exact List.mem_map.mpr ⟨a, List.mem_filter.mpr ⟨ha, decide_eq_true (by omega)⟩, he⟩
  rcases h.live _ hl with ⟨p, hp, he, hr, -⟩ | ⟨K, i, c, -, -, he, -⟩
  · obtain rfl : ptr = blockPtr p := he
    by_cases hf : TakesBuddyPath m (blockPtr p)
    · obtain ⟨b', hk, -⟩ := kfree_block_inv hG h hp hr hf
      have hnf : ¬ Fooled m (blockPtr p) := fun hc => hc.2 hf
      rw [step_kfree hk, if_neg hnf] at hs
      obtain rfl := Option.some.inj hs
      exact hkeep _ fun K i c => by cases K <;> exact Iff.rfl
    · have hfool : Fooled m (blockPtr p) := ⟨hptr, hf⟩
      rcases kfree_fooled (k := s.k) hL (hG p hp) hf with hk | hk
      · rw [step_kfree_none hk] at hs
        cases hs
      · rw [step_kfree hk, if_pos hfool] at hs
        obtain rfl := Option.some.inj hs
        exact hu
  · have := data_ge (K := K) (i := i) (c := c) hL
    simp only at he
    omega

theorem usedLive_init {b : Buddy} : UsedLive L (Sys.init b) := by
  intro K i _ c hc
  have hfree : ((Sys.init b).k.slabs K i).free_chunks = List.replicate K.num true := by
    cases K <;> rfl
  rw [ChunkUsed, hfree, List.getElem?_replicate] at hc
  split at hc <;> cases hc

theorem step_usedLive (hL : L.Valid) (hG : ∀ p ∈ G.dom, InMemory p) (h : SysInv L G s)
    (hu : UsedLive L s) (hok : NoChunkFree L s op) (hs : s.step L op = some s') :
    UsedLive L s' := by
  obtain ⟨kt, hb⟩ := h.buddy
  cases op with
  | kalloc m sz => exact kalloc_usedLive hb h.slabs hok.1 hu hs
  | kfree m ptr =>
    obtain ⟨⟨-, sz, hl⟩, hptr⟩ := hok
    exact kfree_usedLive hL hG h hl hptr hu hs
  | disable_kalloc =>
    obtain rfl := Option.some.inj hs
    exact hu
  | enable_kalloc =>
    obtain rfl := Option.some.inj hs
    exact hu

/-! ## Counting -/

/-- The cleared flags of a list, counted by position. -/
theorem count_false_eq (l : List Bool) :
    l.count false = (List.range l.length).countP fun c => l[c]? = some false := by
  induction l using List.reverseRecOn with
  | nil => rfl
  | append_singleton l a ih =>
    rw [List.length_append, List.length_singleton, List.range_succ, List.countP_append,
      List.count_append, ih]
    congr 1
    · refine List.countP_congr fun c hc => ?_
      rw [List.getElem?_append_left (List.mem_range.mp hc)]
    · cases a <;> simp

/-- With every used chunk live, the cleared flags are the live chunks. -/
theorem count_eq_liveChunks (hL : L.Valid) (hG : ∀ p ∈ G.dom, InMemory p) (h : SysInv L G s)
    (hu : UsedLive L s) (hi : i < K.count) :
    (s.k.slabs K i).free_chunks.count false = liveChunks L s K i := by
  rw [count_false_eq, (h.slabs K i hi).1.length, liveChunks]
  refine List.countP_congr fun c hc => ?_
  have hc' := List.mem_range.mp hc
  simp only [decide_eq_true_eq]
  constructor
  · exact hu K i hi c
  · intro hm
    obtain ⟨a, ha, he⟩ := List.mem_map.mp hm
    rcases h.live a ha with ⟨p, hp, he', -⟩ | ⟨K', i', c', hi', hc'', he', hused, -⟩
    · have h₁ := blockPtr_lt (hG p hp)
      have h₂ := data_ge (K := K) (i := i) (c := c) hL
      omega
    · obtain ⟨rfl, rfl, rfl⟩ := data_inj hL hi hi' hc' hc'' (he.symm.trans he')
      exact hused

/--
**In a run that passes no chunk to `kfree` every slab counts its live chunks.**
-/
theorem slab_counts {ranges : List MemRange} (hv : ValidRanges ranges) {b₀ : Buddy}
    (hinit : init_kalloc ranges .zero = .ok b₀) {L : Layout} (hL : L.Valid) {s : Sys}
    (hr : Reachable L b₀ (NoChunkFree L) s) (K : SlabKind) {i : ℕ} (hi : i < K.count) :
    SlabExact L s K i := by
  obtain ⟨b, G, hb, hinv, hdom⟩ := init_kalloc_ok hv
  obtain rfl : b = b₀ := Except.ok.inj (hb.symm.trans hinit)
  have hG : ∀ p ∈ G.dom, InMemory p := fun p hp => inMemory_of_available hv (hdom ▸ hp)
  have h : SysInv L G s := .reach hL hG hinv (hr.mono fun _ _ hok => hok.1)
  have hu : UsedLive L s := by
    have hboth : SysInv L G s ∧ UsedLive L s := by
      refine Reach.invariant (P := fun s => SysInv L G s ∧ UsedLive L s) ?_ ?_ hr
      · rintro s rfl
        exact ⟨sysInv_init hinv.toBuddyInv (noBuddies_of_top hinv.toBuddyInv) hinv.none_returned,
          usedLive_init⟩
      · rintro s op s' ⟨hi, hu⟩ hok hs
        exact ⟨step_inv hL hG hi hok.1 hs, step_usedLive hL hG hi hu hok hs⟩
    exact hboth.2
  have hslab := (h.slabs K i hi).1
  have hcount := count_eq_liveChunks hL hG h hu hi
  have hn : (s.k.slabs K i).nallocs_ = liveChunks L s K i := by rw [hslab.nallocs, hcount]
  have hle : liveChunks L s K i ≤ K.num := by
    rw [← hcount, ← hslab.length]
    exact List.count_le_length
  have hfull : (s.k.slabs K i).state = .SLAB_FULL ↔ liveChunks L s K i = K.num := by
    rw [hslab.full, hn, Int.natCast_inj]
  have hfree : (s.k.slabs K i).state = .SLAB_FREE ↔ liveChunks L s K i = 0 := by
    rw [hslab.free, hn, Int.natCast_eq_zero]
  refine ⟨hn, hcount, hfull, hfree, ?_, ?_⟩
  · have hpos := K.num_pos
    generalize (s.k.slabs K i).state = st at hfull hfree
    cases st with
    | SLAB_FREE =>
      have := hfree.mp rfl
      simp only [reduceCtorEq, false_iff]
      omega
    | SLAB_PARTIAL =>
      simp only [reduceCtorEq, false_iff] at hfull hfree
      simp only [true_iff]
      omega
    | SLAB_FULL =>
      have := hfull.mp rfl
      simp only [reduceCtorEq, false_iff]
      omega
  · intro m hm hst
    obtain ⟨c, s', he, hg, -⟩ := give_ok (m := m) (a := L.slab K i) hslab hst
      fun c hc => (hm K i hi c hc).2.2
    have hc : c < K.num := by
      obtain ⟨hlt, -⟩ := List.getElem?_eq_some_iff.mp hg.was_free
      exact hslab.length ▸ hlt
    refine ⟨c, hc, s', he, fun hmem => ?_⟩
    -- a live chunk has its flag cleared
    obtain ⟨a, ha, hea⟩ := List.mem_map.mp hmem
    rcases h.live a ha with ⟨p, hp, he', -⟩ | ⟨K', i', c', hi', hc'', he', hused, -⟩
    · have h₁ := blockPtr_lt (hG p hp)
      have h₂ := data_ge (K := K) (i := i) (c := c) hL
      omega
    · obtain ⟨rfl, rfl, rfl⟩ := data_inj hL hi hi' hc hc'' (hea.symm.trans he')
      rw [ChunkUsed, hg.was_free] at hused
      cases hused

/-! ## A lost chunk -/

/-- The state after a request of 8 bytes has been served from the first small slab. -/
def oneChunkSys : Sys where
  k := (Kstate.init twoPagesBuddy).setSlab .SMALL_SLAB 0
    ((Slab.mk' .SMALL_SLAB 0).handOut .SMALL_SLAB 0)
  live := [(twoPagesLayout.data .SMALL_SLAB 0 0, 8)]

theorem oneChunk_step : (Sys.init twoPagesBuddy).step twoPagesLayout
    (.kalloc (bootMem twoPagesLayout) 8) = some oneChunkSys := by
  have hgive : (Slab.mk' .SMALL_SLAB 0).give .SMALL_SLAB (bootMem twoPagesLayout)
      (twoPagesLayout.slab .SMALL_SLAB 0) =
      some ((Slab.mk' .SMALL_SLAB 0).handOut .SMALL_SLAB 0,
        chunkAddr .SMALL_SLAB (twoPagesLayout.slab .SMALL_SLAB 0) 0) := by
    have hcan := (bootMem_headers .SMALL_SLAB 0 (by decide) 0 (by decide)).2.2
    have hfind : (Slab.mk' .SMALL_SLAB 0).free_chunks.findIdx? id = some 0 := by decide
    rw [Slab.give, if_neg (by decide), hfind]
    simp only [hcan, if_true]
  have hloop : giveLoop twoPagesLayout (bootMem twoPagesLayout) .SMALL_SLAB
      (Kstate.init twoPagesBuddy) (List.range STATIC_SMALL_SLABS) =
      some (oneChunkSys.k, twoPagesLayout.data .SMALL_SLAB 0 0) := by
    rw [show List.range STATIC_SMALL_SLABS = [0, 1] from rfl, giveLoop, if_pos (by decide),
      show (Kstate.init twoPagesBuddy).slabs .SMALL_SLAB 0 = Slab.mk' .SMALL_SLAB 0 from rfl, hgive]
    rfl
  have hk : kalloc twoPagesLayout (bootMem twoPagesLayout) (Sys.init twoPagesBuddy).k 8 =
      some (oneChunkSys.k, twoPagesLayout.data .SMALL_SLAB 0 0) := by
    rw [kalloc, if_neg (by decide), if_neg (by decide), slab_kalloc, if_pos (by decide),
      if_pos (by decide), show (Sys.init twoPagesBuddy).k = Kstate.init twoPagesBuddy from rfl, hloop]
    simp only [ne_eq, data_ne_zero, not_false_eq_true, if_true]
  rw [step_kalloc hk, if_neg data_ne_zero]
  rfl

theorem slab_counts_oneChunk : SlabExact twoPagesLayout oneChunkSys .SMALL_SLAB 0 :=
  slab_counts twoPages_valid twoPages_init twoPagesLayout_valid
    (.step (a := .kalloc (bootMem twoPagesLayout) 8) (.init rfl) ⟨bootMem_headers, trivial⟩
      oneChunk_step) .SMALL_SLAB (by decide)

/-- The state after that chunk has been passed to `kfree`. -/
def lostChunkSys : Sys := { oneChunkSys with live := [] }

/-- After one request and one `kfree` no chunk is live, but the slab counts one. -/
theorem chunk_lost : Reachable twoPagesLayout twoPagesBuddy (Correct twoPagesLayout) lostChunkSys ∧
    lostChunkSys.live = [] ∧ (lostChunkSys.k.slabs .SMALL_SLAB 0).nallocs_ = 1 ∧
    ¬ SlabExact twoPagesLayout lostChunkSys .SMALL_SLAB 0 := by
  refine ⟨?_, rfl, rfl, fun h => absurd h.nallocs (by decide)⟩
  have hslabs : SlabsInv oneChunkSys.k := by
    have hinit : SlabsInv (Kstate.init twoPagesBuddy) := fun K i _ => by
      cases K <;> exact ⟨mk'_inv i, rfl⟩
    have hgiven : Given 0 (Slab.mk' .SMALL_SLAB 0) ((Slab.mk' .SMALL_SLAB 0).handOut .SMALL_SLAB 0) :=
      ⟨by decide, rfl, rfl⟩
    exact (setSlab_gave (K := .SMALL_SLAB) (i := 0) hinit (by decide) hgiven
      (handOut_inv (mk'_inv 0) (by decide))).slabs
  have hk := kfree_data (k := oneChunkSys.k) hslabs bootMem_headers (K := .SMALL_SLAB) (i := 0)
    (c := 0) (by decide) (by decide)
  have hstep : oneChunkSys.step twoPagesLayout
      (.kfree (bootMem twoPagesLayout) (twoPagesLayout.data .SMALL_SLAB 0 0)) =
      some lostChunkSys := by
    rw [step_kfree hk, if_neg (by decide)]
    exact congrArg some (congrArg (Sys.mk _) (by decide))
  refine .step (a := .kfree (bootMem twoPagesLayout) (twoPagesLayout.data .SMALL_SLAB 0 0))
    (.step (a := .kalloc (bootMem twoPagesLayout) 8) (.init rfl) ⟨bootMem_headers, trivial⟩
      oneChunk_step) ⟨⟨bootMem_headers, 8, List.mem_cons_self⟩, by decide⟩ hstep

end Chickadee.Alloc
