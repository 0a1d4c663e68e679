import Chickadee.Elf.Tables

/-!
# What `load_segment` stores

The loops of `load_segment` copy in pieces: a piece ends where the loader's data, a page or the segment ends.
Together they store the bytes of the segment one after the other (`Space.store`), whatever the pieces are, so a
loader matters only through the contents that it serves.
-/

namespace Chickadee.Elf

open Lib Fs Vm
open Chkfs (ElfProgram E_NOEXEC)

variable {m m' : Space} {pt : PageTable} {va off end_file : ℕ} {again : Prop} {ld : ProcLoader} {c : List UInt8}

/-! ## Pages -/

theorem lt_page_end (va : ℕ) : va < (va / PAGESIZE + 1) * PAGESIZE := by
  unfold PAGESIZE
  omega

theorem page_end_le (hva : va < VA_LOWEND) : (va / PAGESIZE + 1) * PAGESIZE ≤ VA_LOWEND := by
  unfold VA_LOWEND at hva ⊢
  unfold PAGESIZE
  omega

/-- Another address in the same page. -/
theorem same_page {i : ℕ} (h : va + i < (va / PAGESIZE + 1) * PAGESIZE) :
    (va + i) / PAGESIZE = va / PAGESIZE ∧ (va + i) % PAGESIZE = va % PAGESIZE + i := by
  unfold PAGESIZE at h ⊢
  omega

/-- `round_down(off, PAGESIZE)` -/
theorem page_start (off : ℕ) :
    (off - off % PAGESIZE) % PAGESIZE = 0 ∧ off - off % PAGESIZE ≤ off ∧ off < off - off % PAGESIZE + PAGESIZE := by
  unfold PAGESIZE
  omega

/-! ## Bytes at virtual addresses -/

/-- The byte at an address, if it is mapped. -/
def image (m : Space) (va : ℕ) : Option UInt8 := (find m.pt va).pa.map m.byte

/-- Physical memory after a byte is stored at a virtual address. -/
def storeByte (pt : PageTable) (va : ℕ) (b : UInt8) (mem : ℕ → UInt8) : ℕ → UInt8 :=
  match (find pt va).pa with
  | none => mem
  | some pa => Function.update mem pa b

/-- Physical memory after bytes are stored from a virtual address on. -/
def storeBytes (pt : PageTable) : ℕ → List UInt8 → (ℕ → UInt8) → ℕ → UInt8
  | _, [], mem => mem
  | va, b :: bs, mem => storeBytes pt (va + 1) bs (storeByte pt va b mem)

/-- Bytes are stored from a virtual address on. -/
def Space.store (m : Space) (va : ℕ) (bs : List UInt8) : Space :=
  { m with byte := storeBytes m.pt va bs m.byte }

@[simp] theorem store_pt (va : ℕ) (bs : List UInt8) : (m.store va bs).pt = m.pt := rfl

@[simp] theorem store_nil (va : ℕ) : m.store va [] = m := rfl

theorem storeBytes_append (va : ℕ) (bs bs' : List UInt8) (mem : ℕ → UInt8) :
    storeBytes pt va (bs ++ bs') mem = storeBytes pt (va + bs.length) bs' (storeBytes pt va bs mem) := by
  induction bs generalizing va mem with
  | nil => rfl
  | cons b bs ih =>
    rw [List.cons_append, storeBytes, storeBytes, ih, List.length_cons, Nat.add_assoc, Nat.add_comm 1]

theorem store_append (va : ℕ) (bs bs' : List UInt8) :
    m.store va (bs ++ bs') = (m.store va bs).store (va + bs.length) bs' := by
  unfold Space.store
  rw [storeBytes_append]

theorem copyTo_cons (mem : ℕ → UInt8) (a : ℕ) (b : UInt8) (bs : List UInt8) :
    copyTo mem a (b :: bs).length (fun i => (b :: bs).getD i 0) =
      copyTo (Function.update mem a b) (a + 1) bs.length fun i => bs.getD i 0 := by
  funext x
  rcases Nat.lt_trichotomy x a with hlt | rfl | hgt
  · rw [copyTo_of_not_mem (.inl hlt), copyTo_of_not_mem (.inl (by omega)), Function.update_of_ne hlt.ne]
  · rw [copyTo_of_mem le_rfl (by rw [List.length_cons]; omega), copyTo_of_not_mem (.inl (by omega)),
      Function.update_self, Nat.sub_self]
    rfl
  · by_cases hin : x < a + 1 + bs.length
    · rw [copyTo_of_mem hgt.le (by rw [List.length_cons]; omega), copyTo_of_mem hgt hin,
        show x - a = (x - (a + 1)) + 1 by omega]
      rfl
    · rw [copyTo_of_not_mem (.inr (by rw [List.length_cons]; omega)), copyTo_of_not_mem (.inr (by omega)),
        Function.update_of_ne hgt.ne']

/-- Where the addresses are contiguous, a copy stores the same. -/
theorem copyTo_eq_storeBytes {pa : ℕ} (bs : List UInt8) (mem : ℕ → UInt8)
    (h : ∀ i < bs.length, (find pt (va + i)).pa = some (pa + i)) :
    copyTo mem pa bs.length (fun i => bs.getD i 0) = storeBytes pt va bs mem := by
  induction bs generalizing va pa mem with
  | nil =>
    funext x
    exact copyTo_of_not_mem (by rw [List.length_nil]; omega)
  | cons b bs ih =>
    have hhead : (find pt va).pa = some pa := h 0 (Nat.succ_pos _)
    have hnext : ∀ i < bs.length, (find pt (va + 1 + i)).pa = some (pa + 1 + i) := by
      intro i hi
      rw [show va + 1 + i = va + (i + 1) by omega, show pa + 1 + i = pa + (i + 1) by omega]
      exact h (i + 1) (Nat.succ_lt_succ hi)
    rw [copyTo_cons, ih _ hnext, storeBytes, storeByte, hhead]

/-! ## Memory that is mapped -/

/-- The addresses from `lo` up to `hi` are below `VA_LOWEND` and mapped. -/
structure Mapped (m : Space) (lo hi : ℕ) : Prop where
  shape : Shape m.pt
  low : hi ≤ VA_LOWEND
  page : ∀ x, lo ≤ x → x < hi → m.pt 0 (x / PAGESIZE) ≠ none

theorem Mapped.from {lo lo' hi : ℕ} (h : Mapped m lo hi) (hle : lo ≤ lo') (bs : List UInt8) :
    Mapped (m.store va bs) lo' hi :=
  ⟨h.shape, h.low, fun x hlo hhi => h.page x (hle.trans hlo) hhi⟩

/-- The iterator at a mapped address: where its page ends, and a copy that stays in the page. -/
theorem Mapped.piece {lo hi : ℕ} (h : Mapped m lo hi) (hlo : lo ≤ va) (hhi : va < hi) :
    (find m.pt va).last_va = (va / PAGESIZE + 1) * PAGESIZE ∧ ∃ pa, (find m.pt va).pa = some pa ∧
      ∀ bs : List UInt8, va + bs.length ≤ (va / PAGESIZE + 1) * PAGESIZE → m.memcpy pa bs = m.store va bs := by
  have hva : va < VA_LOWEND := lt_of_lt_of_le hhi h.low
  obtain ⟨pe, hpe⟩ := Option.ne_none_iff_exists'.mp (h.page va hlo hhi)
  rw [h.shape.find_page hva hpe]
  refine ⟨?_, pe.pa + va % PAGESIZE, rfl, fun bs hbs => ?_⟩
  · show (va / PAGESIZE + 1) * PAGESIZE % 2 ^ 64 = _
    exact Nat.mod_eq_of_lt (lt_of_le_of_lt (page_end_le hva) (by decide))
  · unfold Space.memcpy Space.store
    rw [copyTo_eq_storeBytes bs m.byte fun i hi => ?_]
    -- The other bytes are in the same page.
    have hend : va + i < (va / PAGESIZE + 1) * PAGESIZE := by omega
    obtain ⟨hdiv, hmod⟩ := same_page hend
    rw [h.shape.find_pa (lt_of_lt_of_le hend (page_end_le hva)), hdiv, hpe, Option.map_some, hmod, Nat.add_assoc]

/-! ## The loops -/

theorem take_drop_add (l : List UInt8) (a n k : ℕ) :
    (l.drop a).take n ++ (l.drop (a + n)).take k = (l.drop a).take (n + k) := by
  rw [List.take_add, List.drop_drop]

/-- One `get_page` is copied up to its end or the end of the segment. -/
theorem copyData_eq {data : List UInt8} {req_off : ℕ} (n : ℕ) (h : Mapped m va end_file)
    (hreq : req_off ≤ off) (hfuel : end_file - va < n) :
    copyData data req_off end_file n va off m =
      some (va + min (req_off + data.length - off) (end_file - va),
        off + min (req_off + data.length - off) (end_file - va),
        m.store va ((data.drop (off - req_off)).take (min (req_off + data.length - off) (end_file - va)))) := by
  induction n generalizing va off m with
  | zero => exact absurd hfuel (Nat.not_lt_zero _)
  | succ n ih =>
    unfold copyData
    dsimp only
    split
    · rename_i hlt
      obtain ⟨hlast, pa, hpa, hcopy⟩ := h.piece le_rfl hlt.2
      rw [hlast, hpa]
      dsimp only
      have hpage := lt_page_end va
      obtain ⟨sz, hsz⟩ : ∃ sz, sz = min (req_off + data.length - off)
        (min ((va / PAGESIZE + 1) * PAGESIZE) end_file - va) := ⟨_, rfl⟩
      rw [← hsz]
      have hlen : ((data.drop (off - req_off)).take sz).length = sz := by
        rw [List.length_take, List.length_drop]
        omega
      have hrest : min (req_off + data.length - off) (end_file - va) =
          sz + min (req_off + data.length - (off + sz)) (end_file - (va + sz)) := by omega
      rw [hcopy _ (by rw [hlen]; omega), ih (h.from (Nat.le_add_right va sz) _) (by omega) (by omega), hrest,
        ← take_drop_add, store_append, hlen, show off - req_off + sz = off + sz - req_off by omega,
        Nat.add_assoc, Nat.add_assoc]
    · rename_i hge
      have hzero : min (req_off + data.length - off) (end_file - va) = 0 := by omega
      rw [hzero]
      rfl

/-- The tail is cleared. -/
theorem clearTail_eq {end_mem : ℕ} (n : ℕ) (h : Mapped m va end_mem) (hfuel : end_mem - va < n) :
    clearTail end_mem n va m = some (m.store va (List.replicate (end_mem - va) 0)) := by
  induction n generalizing va m with
  | zero => exact absurd hfuel (Nat.not_lt_zero _)
  | succ n ih =>
    unfold clearTail
    dsimp only
    split
    · rename_i hlt
      obtain ⟨hlast, pa, hpa, hcopy⟩ := h.piece le_rfl hlt
      rw [hlast, hpa]
      dsimp only
      have hpage := lt_page_end va
      obtain ⟨sz, hsz⟩ : ∃ sz, sz = min ((va / PAGESIZE + 1) * PAGESIZE) end_mem - va := ⟨_, rfl⟩
      rw [← hsz]
      have hrest : end_mem - va = sz + (end_mem - (va + sz)) := by omega
      rw [hcopy _ (by rw [List.length_replicate]; omega), ih (h.from (Nat.le_add_right va sz) _) (by omega), hrest,
        ← List.replicate_append_replicate, store_append, List.length_replicate]
    · rename_i hge
      rw [show end_mem - va = 0 by omega]
      rfl

/-! ## The contents that a loader serves -/

/-- At the start of a page `get_page` gives the contents up to somewhere behind the page or their end, and
behind their end it fails or gives nothing. -/
structure Serves (ld : ProcLoader) (c : List UInt8) : Prop where
  pagetable : ld.pagetable_ = true
  inside : ∀ off, off % PAGESIZE = 0 → off < c.length →
    ∃ data, ld.get_page off = .ok data ∧ data <+: c.drop off ∧ min PAGESIZE (c.length - off) ≤ data.length
  behind : ∀ off, off % PAGESIZE = 0 → c.length ≤ off →
    (∃ e < 0, ld.get_page off = .error e) ∨ ld.get_page off = .ok []

/-- A piece of what was read is a piece of the contents. -/
theorem take_of_start {data : List UInt8} {req k : ℕ} (h : data <+: c.drop req) (hreq : req ≤ off)
    (hk : k ≤ req + data.length - off) : (data.drop (off - req)).take k = (c.drop off).take k := by
  obtain ⟨rest, hrest⟩ := h
  have hdrop : c.drop off = (c.drop req).drop (off - req) := by
    rw [List.drop_drop]
    congr 1
    omega
  by_cases hle : off - req ≤ data.length
  · rw [hdrop, ← hrest, List.drop_append_of_le_length hle, List.take_append_of_le_length]
    rw [List.length_drop]
    omega
  · rw [show k = 0 by omega, List.take_zero, List.take_zero]

/-- The data is there exactly if the contents do not end before it does. -/
theorem loadData_spec (hserves : Serves ld c) (n off : ℕ) (h : Mapped m va end_file) (hfuel : end_file - va < n) :
    ∃ r bs, loadData ld end_file n va off m = some (r, m.store va bs) ∧
      (va < end_file → c.length < off + (end_file - va) → r < 0) ∧
      ((va < end_file → off + (end_file - va) ≤ c.length) →
        r = 0 ∧ bs = (c.drop off).take (end_file - va)) := by
  induction n generalizing va off m with
  | zero => exact absurd hfuel (Nat.not_lt_zero _)
  | succ n ih =>
    unfold loadData
    split
    · rename_i hlt
      dsimp only
      obtain ⟨req, hreq⟩ : ∃ req, req = off - off % PAGESIZE := ⟨_, rfl⟩
      obtain ⟨halign, hle, hoff⟩ := page_start off
      rw [← hreq] at halign hle hoff ⊢
      by_cases hin : off < c.length
      · obtain ⟨data, hpage, hstart, hlen⟩ := hserves.inside req halign (by omega)
        rw [hpage]
        dsimp only
        have hmore : ¬req + data.length ≤ off := by omega
        rw [if_neg hmore, copyData_eq _ h (by omega) (Nat.lt_succ_self _)]
        dsimp only
        obtain ⟨k, hk⟩ : ∃ k, k = min (req + data.length - off) (end_file - va) := ⟨_, rfl⟩
        rw [← hk, take_of_start hstart (by omega) (by omega)]
        have hlenk : ((c.drop off).take k).length = k := by
          have := hstart.length_le
          rw [List.length_drop] at this
          rw [List.length_take, List.length_drop]
          omega
        obtain ⟨r, bs, heq, hshort, hfits⟩ := ih (off + k)
          (h.from (Nat.le_add_right va k) ((c.drop off).take k)) (by omega)
        refine ⟨r, (c.drop off).take k ++ bs, ?_, fun _ hc => ?_, fun hc => ?_⟩
        · rw [heq, store_append, hlenk]
        · by_cases hrest : va + k < end_file
          · exact hshort hrest (by omega)
          · have := hstart.length_le
            rw [List.length_drop] at this
            exact absurd hc (by omega)
        · obtain ⟨hr, hbs⟩ := hfits fun _ => by have := hc hlt; omega
          refine ⟨hr, ?_⟩
          rw [hbs, take_drop_add, show k + (end_file - (va + k)) = end_file - va by omega]
      · have hnone : req + ([] : List UInt8).length ≤ off := hle
        have hshort : (va < end_file → off + (end_file - va) ≤ c.length) → False := fun hc => by
          have := hc hlt
          omega
        rcases Nat.lt_or_ge req c.length with hreq' | hreq'
        · obtain ⟨data, hpage, hstart, -⟩ := hserves.inside req halign hreq'
          have := hstart.length_le
          rw [List.length_drop] at this
          rw [hpage]
          dsimp only
          rw [if_pos (by omega)]
          exact ⟨E_NOEXEC, [], rfl, fun _ _ => by decide, fun hc => (hshort hc).elim⟩
        · rcases hserves.behind req halign hreq' with ⟨e, he, hpage⟩ | hpage
          · rw [hpage]
            exact ⟨e, [], rfl, fun _ _ => he, fun hc => (hshort hc).elim⟩
          · rw [hpage]
            dsimp only
            rw [if_pos hnone]
            exact ⟨E_NOEXEC, [], rfl, fun _ _ => by decide, fun hc => (hshort hc).elim⟩
    · rename_i hge
      refine ⟨0, [], rfl, fun hlt => absurd hlt hge, fun _ => ⟨rfl, ?_⟩⟩
      rw [show end_file - va = 0 by omega, List.take_zero]

/-! ## `load_segment` -/

section

variable {ph : ElfProgram}

/-- The checks of `load_segment` -/
def Sized (ph : ElfProgram) : Prop :=
  ph.p_va ≤ VA_LOWEND ∧ ph.p_memsz ≤ VA_LOWEND - ph.p_va ∧ ph.p_filesz ≤ ph.p_memsz

/-- The data of the segment is in the contents. -/
def Fits (c : List UInt8) (ph : ElfProgram) : Prop := ph.p_filesz = 0 ∨ ph.p_offset + ph.p_filesz ≤ c.length

instance (ph : ElfProgram) : Decidable (Sized ph) :=
  inferInstanceAs (Decidable (ph.p_va ≤ VA_LOWEND ∧ ph.p_memsz ≤ VA_LOWEND - ph.p_va ∧ ph.p_filesz ≤ ph.p_memsz))

instance (c : List UInt8) (ph : ElfProgram) : Decidable (Fits c ph) :=
  inferInstanceAs (Decidable (ph.p_filesz = 0 ∨ ph.p_offset + ph.p_filesz ≤ c.length))

/-- What the segment is in memory: its data, then zeros. -/
def segment (c : List UInt8) (ph : ElfProgram) : List UInt8 :=
  (c.drop ph.p_offset).take ph.p_filesz ++ List.replicate (ph.p_memsz - ph.p_filesz) 0

/-- The page `v` is mapped for the segment. -/
def Touches (ph : ElfProgram) (v : ℕ) : Prop := ph.p_va / PAGESIZE ≤ v ∧ v * PAGESIZE < ph.p_va + ph.p_memsz

/-- The number of pages that are mapped for the segment. -/
def npages (ph : ElfProgram) : ℕ := (ph.p_va % PAGESIZE + ph.p_memsz + PAGESIZE - 1) / PAGESIZE

/-- The call of `allocPages` -/
def allocSegment (ph : ElfProgram) (m : Space) : Option (Bool × Space) :=
  allocPages (ph.p_va + ph.p_memsz) (ph.p_memsz + 2) (ph.p_va - ph.p_va % PAGESIZE) m

/-- What the allocation for a segment does. -/
structure Allocated (again : Prop) (ph : ElfProgram) (m m' : Space) (ok : Bool) : Prop where
  keeps : Keeps m m'
  puts : Pool.Puts (Pages again (Touches ph)) (pool m) (pool m')
  page : ok = true → ∀ v, Touches ph v → ∃ pg ∈ m.free, slots m'.pt (0, v) = some pg
  enough : 4 * npages ph ≤ m.free.length → ok = true ∧ m.free.length ≤ m'.free.length + 4 * npages ph

theorem allocSegment_spec (hsized : Sized ph) (h : Shape m.pt) (hfree : ∀ pg ∈ m.free, pg % PAGESIZE = 0)
    (hslot : ∀ v, Touches ph v → slots m.pt (0, v) = none ∨ again) :
    ∃ ok m', allocSegment ph m = some (ok, m') ∧ Allocated again ph m m' ok := by
  obtain ⟨hva, hmem, -⟩ := hsized
  have hend : ph.p_va + ph.p_memsz ≤ VA_LOWEND := by omega
  obtain ⟨halign, hle, hstart⟩ := page_start ph.p_va
  have hpage : (ph.p_va - ph.p_va % PAGESIZE) / PAGESIZE = ph.p_va / PAGESIZE := by
    unfold PAGESIZE
    omega
  have hfuel : ph.p_va + ph.p_memsz + PAGESIZE ≤ ph.p_va - ph.p_va % PAGESIZE + (ph.p_memsz + 2) * PAGESIZE := by
    unfold PAGESIZE at hstart ⊢
    omega
  obtain ⟨ok, m', heq, hkeeps, hputs, hpages, hcount⟩ := allocPages_spec hend (ph.p_memsz + 2) halign hfuel
    (Nat.succ_pos _) h hfree fun v hv hend => hslot v ⟨by rwa [hpage] at hv, hend⟩
  rw [hpage] at hputs hpages
  refine ⟨ok, m', heq, hkeeps, hputs, fun hok v hv => hpages hok v hv.1 hv.2, hcount _ ?_⟩
  unfold npages PAGESIZE
  omega

/-- The segment is mapped once its pages are allocated. -/
theorem Allocated.mapped (h : Allocated again ph m m' true) (hsized : Sized ph) :
    Mapped m' ph.p_va (ph.p_va + ph.p_memsz) := by
  obtain ⟨hva, hmem, -⟩ := hsized
  refine ⟨h.keeps.shape, by omega, fun x hlo hhi hnone => ?_⟩
  have hlow : Low (0, x / PAGESIZE) := low_page (by omega)
  obtain ⟨pg, -, hpg⟩ := h.page rfl (x / PAGESIZE)
    ⟨Nat.div_le_div_right hlo, lt_of_le_of_lt (Nat.div_mul_le_self x PAGESIZE) hhi⟩
  rw [(slots_eq_none hlow).mpr hnone] at hpg
  exact absurd hpg (Option.some_ne_none pg).symm

theorem load_segment_unsized (h : ¬Sized ph) : load_segment ld ph m = some (E_NOEXEC, m) := by
  unfold load_segment
  dsimp only
  refine if_pos ?_
  unfold Sized at h
  omega

/-- A segment with good sizes: its pages are allocated, then its bytes are stored if they are there. -/
theorem load_segment_cases (hserves : Serves ld c) (hsized : Sized ph) (h : Shape m.pt)
    (hfree : ∀ pg ∈ m.free, pg % PAGESIZE = 0) (hslot : ∀ v, Touches ph v → slots m.pt (0, v) = none ∨ again) :
    ∃ ok m', allocSegment ph m = some (ok, m') ∧ Allocated again ph m m' ok ∧
      (ok = false → load_segment ld ph m = some (E_NOMEM, m')) ∧
      (ok = true → ∃ r bs, load_segment ld ph m = some (r, m'.store ph.p_va bs) ∧
        (¬Fits c ph → r < 0) ∧ (Fits c ph → r = 0 ∧ bs = segment c ph)) := by
  obtain ⟨ok, m', heq, hall⟩ := allocSegment_spec hsized h hfree hslot
  have hpages : allocPages (ph.p_va + ph.p_memsz) (ph.p_memsz + 2) (ph.p_va - ph.p_va % PAGESIZE) m = some (ok, m') :=
    heq
  have hguards : ¬(VA_LOWEND < ph.p_va ∨ VA_LOWEND - ph.p_va < ph.p_memsz ∨ ph.p_memsz < ph.p_filesz) := by
    unfold Sized at hsized
    omega
  have hpt : ¬ld.pagetable_ = false := by simp [hserves.pagetable]
  refine ⟨ok, m', heq, hall, ?_, ?_⟩
  · rintro rfl
    unfold load_segment
    dsimp only
    rw [if_neg hguards, if_neg hpt, hpages]
  · rintro rfl
    have hmapped := hall.mapped hsized
    have hdata : Mapped m' ph.p_va (ph.p_va + ph.p_filesz) :=
      ⟨hmapped.shape, (Nat.add_le_add_left hsized.2.2 _).trans hmapped.low,
        fun x hlo hhi => hmapped.page x hlo (lt_of_lt_of_le hhi (Nat.add_le_add_left hsized.2.2 _))⟩
    obtain ⟨r, bs, hloaded, hshort, hfits⟩ := loadData_spec hserves (ph.p_filesz + 1) ph.p_offset hdata (by omega)
    rw [Nat.add_sub_cancel_left] at hshort hfits
    unfold load_segment
    dsimp only
    rw [if_neg hguards, if_neg hpt, hpages]
    dsimp only
    rw [hloaded]
    dsimp only
    by_cases hr : r < 0
    · rw [if_pos hr]
      refine ⟨r, bs, rfl, fun _ => hr, fun hfit => ?_⟩
      have := (hfits fun hpos => hfit.resolve_left (by omega)).1
      omega
    · have hfit : Fits c ph := by
        by_contra hnot
        unfold Fits at hnot
        exact hr (hshort (by omega) (by omega))
      obtain ⟨hzero, hbs⟩ := hfits fun hpos => hfit.resolve_left (by omega)
      have hlen : bs.length = ph.p_filesz := by
        rw [hbs, List.length_take, List.length_drop]
        rcases hfit with hfit | hfit
        · omega
        · omega
      rw [if_neg hr, clearTail_eq _ (hmapped.from (Nat.le_add_right _ _) bs) (by omega), Option.map_some]
      refine ⟨0, segment c ph, ?_, fun hnot => absurd hfit hnot, fun _ => ⟨rfl, rfl⟩⟩
      unfold segment
      rw [← hbs, store_append, hlen, show ph.p_va + ph.p_memsz - (ph.p_va + ph.p_filesz) =
        ph.p_memsz - ph.p_filesz by omega]

end

/-! ## What is seen of a store -/

/-- The tables are in order, and all pages start at multiples of `PAGESIZE`. -/
structure Orderly (m : Space) : Prop where
  shape : Shape m.pt
  free : ∀ pg ∈ m.free, pg % PAGESIZE = 0
  held : ∀ s pg, slots m.pt s = some pg → pg % PAGESIZE = 0

/-- Every page is free or in one entry. -/
structure Ready (all : ℕ → Prop) (m : Space) : Prop extends Orderly m where
  exact : Pool.Exact all (pool m)

variable {all : ℕ → Prop} {x y a : ℕ}

theorem Orderly.store (h : Orderly m) (va : ℕ) (bs : List UInt8) : Orderly (m.store va bs) :=
  ⟨h.shape, h.free, h.held⟩

theorem Ready.store (h : Ready all m) (va : ℕ) (bs : List UInt8) : Ready all (m.store va bs) :=
  ⟨h.toOrderly.store va bs, h.exact⟩

/-- The entry for an address, and where that is. -/
theorem Orderly.slot (h : Orderly m) (hx : x < VA_LOWEND) (ha : (find m.pt x).pa = some a) :
    ∃ pg, slots m.pt (0, x / PAGESIZE) = some pg ∧ pg % PAGESIZE = 0 ∧ a = pg + x % PAGESIZE := by
  rw [h.shape.find_pa hx] at ha
  obtain ⟨pe, hpe, rfl⟩ := Option.map_eq_some_iff.mp ha
  have hslot : slots m.pt (0, x / PAGESIZE) = some pe.pa := by
    have hlow : Low (0, x / PAGESIZE) := low_page hx
    unfold slots
    rw [if_pos hlow, hpe]
    rfl
  exact ⟨pe.pa, hslot, h.held _ _ hslot, rfl⟩

/-- No two addresses have the same place. -/
theorem Ready.pa_inj (h : Ready all m) (hx : x < VA_LOWEND) (hy : y < VA_LOWEND) (hxa : (find m.pt x).pa = some a)
    (hya : (find m.pt y).pa = some a) : x = y := by
  obtain ⟨pg, hpg, halign, rfl⟩ := h.slot hx hxa
  obtain ⟨pg', hpg', halign', heq⟩ := h.slot hy hya
  have hpage : pg = pg' := by
    unfold PAGESIZE at halign halign' heq
    omega
  subst hpage
  have hslot := congrArg Prod.snd (h.exact.inj _ _ _ hpg hpg')
  dsimp only at hslot
  unfold PAGESIZE at hslot heq
  omega

/-- A byte is seen where it is stored, and nowhere else. -/
theorem image_store_one (h : Ready all m) (hva : va < VA_LOWEND) (hmapped : (find m.pt va).pa ≠ none) (b : UInt8)
    (hx : x < VA_LOWEND) : image (m.store va [b]) x = if x = va then some b else image m x := by
  obtain ⟨pa, hpa⟩ := Option.ne_none_iff_exists'.mp hmapped
  have hbyte : (m.store va [b]).byte = Function.update m.byte pa b := by
    show storeByte m.pt va b m.byte = _
    unfold storeByte
    rw [hpa]
  unfold image
  rw [hbyte, store_pt]
  split
  · rename_i hat
    subst hat
    rw [hpa, Option.map_some, Function.update_self]
  · rename_i hne
    cases hxa : (find m.pt x).pa with
    | none => rfl
    | some a =>
      have hother : a ≠ pa := by
        rintro rfl
        exact hne (h.pa_inj hx hva hxa hpa)
      rw [Option.map_some, Option.map_some, Function.update_of_ne hother]

theorem image_store (bs : List UInt8) (h : Ready all m) (hmapped : Mapped m va (va + bs.length))
    (hx : x < VA_LOWEND) :
    image (m.store va bs) x = if va ≤ x ∧ x < va + bs.length then bs[x - va]? else image m x := by
  induction bs generalizing va m with
  | nil => rw [if_neg (by rw [List.length_nil]; omega), store_nil]
  | cons b bs ih =>
    rw [List.length_cons] at hmapped
    have hva : va < VA_LOWEND := lt_of_lt_of_le (by omega) hmapped.low
    have hhere : (find m.pt va).pa ≠ none := by
      rw [hmapped.shape.find_pa hva, Ne, Option.map_eq_none_iff]
      exact hmapped.page va le_rfl (by omega)
    have hrest : Mapped (m.store va [b]) (va + 1) (va + 1 + bs.length) := by
      rw [show va + 1 + bs.length = va + (bs.length + 1) by omega]
      exact hmapped.from (Nat.le_succ va) [b]
    rw [show b :: bs = [b] ++ bs from rfl, store_append, List.length_append, List.length_singleton,
      ih (h.store va [b]) hrest, image_store_one h hva hhere b hx]
    rcases Nat.lt_trichotomy x va with hlt | rfl | hgt
    · rw [if_neg (by omega), if_neg (by omega), if_neg (by omega)]
    · rw [if_neg (by omega), if_pos rfl, if_pos (by omega), Nat.sub_self]
      rfl
    · by_cases hin : x < va + 1 + bs.length
      · rw [if_pos (by omega), if_pos (by omega), show x - va = (x - (va + 1)) + 1 by omega]
        rfl
      · rw [if_neg (by omega), if_neg (by omega), if_neg (by omega)]

end Chickadee.Elf
