import Chickadee.Elf.Segment

/-!
# When `proc::load` is right

A segment gets pages of its own, also where a page is mapped already: the entry is overwritten, and with it the
only trace of a page that an earlier segment filled. So `load` is right, with whatever memory there is, exactly
if no two of the segments that it comes to touch a common page.
-/

namespace Chickadee.Elf

open Lib Fs Vm
open Chkfs (ElfProgram elfOk ELF_PTYPE_LOAD E_NOEXEC)

variable {m m' : Space} {ld : ProcLoader} {c : List UInt8} {ph : ElfProgram} {all : ℕ → Prop} {again : Prop} {ok : Bool}

/-! ## The allocation for a segment -/

theorem Shape.find_slots {pt : PageTable} {x : ℕ} (h : Shape pt) (hx : x < VA_LOWEND) :
    (find pt x).pa = (slots pt (0, x / PAGESIZE)).map (· + x % PAGESIZE) := by
  rw [h.find_pa hx]
  unfold slots
  rw [if_pos (low_page hx), Option.map_map]
  rfl

theorem Allocated.orderly (ha : Allocated again ph m m' ok) (h : Orderly m) : Orderly m' := by
  refine ⟨ha.keeps.shape, fun pg hpg => h.free pg (ha.puts.mem hpg), fun s pg hpg => ?_⟩
  rcases ha.puts.held_or s with hold | ⟨x, hx, hnew⟩
  · exact h.held s pg (hold.symm.trans hpg)
  · rw [show slots m'.pt s = some x from hnew] at hpg
    exact Option.some.inj hpg ▸ h.free x hx

theorem Allocated.ready (ha : Allocated False ph m m' ok) (h : Ready all m) : Ready all m' := by
  refine ⟨ha.orderly h.toOrderly, h.exact.puts ?_ ha.puts⟩
  rintro s o (ht | ⟨-, -, ho⟩)
  · exact ht.2
  · exact ho.resolve_right id

/-- A page that the segment does not touch stays as it is, and so does one that may not be mapped again. -/
theorem Allocated.slot_eq (ha : Allocated again ph m m' ok) {v : ℕ}
    (hv : ¬Touches ph v ∨ ¬again ∧ slots m.pt (0, v) ≠ none) : slots m'.pt (0, v) = slots m.pt (0, v) := by
  refine ha.puts.held_eq ?_
  rintro (ht | ⟨-, htouch, ho⟩)
  · exact absurd ht.1 (lt_irrefl 0)
  · rcases hv with hv | ⟨hagain, hne⟩
    · exact hv htouch
    · exact hne (ho.resolve_right hagain)

theorem Allocated.image_eq (ha : Allocated False ph m m' ok) (h : Orderly m) {x : ℕ} (hx : x < VA_LOWEND)
    (hslot : slots m.pt (0, x / PAGESIZE) ≠ none) : image m' x = image m x := by
  unfold image
  rw [ha.keeps.shape.find_slots hx, h.shape.find_slots hx, ha.slot_eq (.inr ⟨id, hslot⟩), ha.keeps.byte]

/-! ## A run in which no page is mapped again -/

/-- The memory of a segment: the bytes of the file, then zeros. -/
structure Right (data : List UInt8) (ph : ElfProgram) (m : Space) : Prop where
  file : ∀ i < ph.p_filesz, ∃ b, data[ph.p_offset + i]? = some b ∧ image m (ph.p_va + i) = some b
  zero : ∀ i, ph.p_filesz ≤ i → i < ph.p_memsz → image m (ph.p_va + i) = some 0

/-- The segments whose pages `load` comes to allocate if memory does not run out: up to the first that has bad
sizes, and no further than the first whose data is not in the file. -/
def reached (c : List UInt8) : List ElfProgram → List ElfProgram
  | [] => []
  | ph :: phs => if Sized ph then (if Fits c ph then ph :: reached c phs else [ph]) else []

theorem reached_eq_self {phs : List ElfProgram} (h : ∀ ph ∈ phs, Sized ph ∧ Fits c ph) : reached c phs = phs := by
  induction phs with
  | nil => rfl
  | cons ph phs ih =>
    obtain ⟨hsized, hfits⟩ := h ph List.mem_cons_self
    rw [reached, if_pos hsized, if_pos hfits, ih fun b hb => h b (List.mem_cons_of_mem ph hb)]

/-- The segments touch different pages. -/
def Apart (phs : List ElfProgram) : Prop := phs.Pairwise fun a b => ∀ v, ¬(Touches a v ∧ Touches b v)

theorem touches_of_mem {i : ℕ} (hi : i < ph.p_memsz) : Touches ph ((ph.p_va + i) / PAGESIZE) :=
  ⟨Nat.div_le_div_right (Nat.le_add_right _ _),
    lt_of_le_of_lt (Nat.div_mul_le_self _ _) (Nat.add_lt_add_left hi _)⟩

theorem length_segment (hsized : Sized ph) (hfits : Fits c ph) : (segment c ph).length = ph.p_memsz := by
  obtain ⟨-, -, hle⟩ := hsized
  unfold segment
  rw [List.length_append, List.length_take, List.length_drop, List.length_replicate]
  rcases hfits with hfits | hfits
  · omega
  · omega

/-- What was stored is the segment. -/
theorem right_store (hready : Ready all m) (hmapped : Mapped m ph.p_va (ph.p_va + ph.p_memsz)) (hsized : Sized ph)
    (hfits : Fits c ph) : Right c ph (m.store ph.p_va (segment c ph)) := by
  have hlen := length_segment hsized hfits
  have hseen : ∀ i < ph.p_memsz, image (m.store ph.p_va (segment c ph)) (ph.p_va + i) = (segment c ph)[i]? := by
    intro i hi
    have hx : ph.p_va + i < VA_LOWEND := lt_of_lt_of_le (Nat.add_lt_add_left hi _) hmapped.low
    rw [image_store _ hready (by rw [hlen]; exact hmapped) hx, hlen, if_pos (by omega), Nat.add_sub_cancel_left]
  have hfile : ((c.drop ph.p_offset).take ph.p_filesz).length = ph.p_filesz := by
    rw [List.length_take, List.length_drop]
    rcases hfits with hfits | hfits
    · omega
    · omega
  refine ⟨fun i hi => ?_, fun i hle hi => ?_⟩
  · have hin : ph.p_offset + i < c.length := by
      rcases hfits with hfits | hfits
      · omega
      · omega
    refine ⟨_, List.getElem?_eq_getElem hin, ?_⟩
    rw [hseen i (lt_of_lt_of_le hi hsized.2.2), segment, List.getElem?_append_left (by rw [hfile]; exact hi),
      List.getElem?_take_of_lt hi, List.getElem?_drop, List.getElem?_eq_getElem hin]
  · rw [hseen i hi, segment, List.getElem?_append_right (by rw [hfile]; exact hle), hfile,
      List.getElem?_replicate_of_lt (by omega)]

/-- Where no page is touched that is mapped already, and none twice, the run keeps every page and what was there,
and ends with 0 only if all segments are right. -/
theorem loadSegments_right (hserves : Serves ld c) (phs : List ElfProgram)
    (hload : ∀ ph ∈ phs, ph.p_type = ELF_PTYPE_LOAD) (h : Ready all m)
    (hempty : ∀ ph ∈ reached c phs, ∀ v, Touches ph v → slots m.pt (0, v) = none) (hapart : Apart (reached c phs)) :
    ∃ r m', loadSegments ld phs m = some (r, m') ∧ Ready all m' ∧
      (r = 0 → (∀ ph ∈ phs, Right c ph m') ∧
        ∀ x < VA_LOWEND, slots m.pt (0, x / PAGESIZE) ≠ none → image m' x = image m x) := by
  induction phs generalizing m with
  | nil => exact ⟨0, m, rfl, h, fun _ => ⟨nofun, fun _ _ _ => rfl⟩⟩
  | cons ph phs ih =>
    unfold loadSegments
    rw [if_pos (hload ph List.mem_cons_self)]
    by_cases hsized : Sized ph
    · have hmem : ph ∈ reached c (ph :: phs) := by
        unfold reached
        rw [if_pos hsized]
        split
        · exact List.mem_cons_self
        · exact List.mem_cons_self
      have hslot : ∀ v, Touches ph v → slots m.pt (0, v) = none ∨ False := fun v hv => .inl (hempty ph hmem v hv)
      obtain ⟨ok, m₁, -, ha, hno, hyes⟩ := load_segment_cases hserves hsized h.shape h.free hslot
      have hready := ha.ready h
      cases ok with
      | false =>
        rw [hno rfl]
        exact ⟨E_NOMEM, m₁, rfl, hready, fun he => absurd he (by decide)⟩
      | true =>
        obtain ⟨r, bs, hrun, hshort, hdone⟩ := hyes rfl
        rw [hrun]
        dsimp only
        by_cases hfits : Fits c ph
        · obtain ⟨rfl, rfl⟩ := hdone hfits
          rw [if_neg (lt_irrefl 0)]
          have hreached : reached c (ph :: phs) = ph :: reached c phs := by
            rw [reached, if_pos hsized, if_pos hfits]
          rw [hreached] at hempty hapart
          obtain ⟨hhead, htail⟩ := List.pairwise_cons.mp hapart
          have hlater : ∀ b ∈ reached c phs, ∀ v, Touches b v → slots m₁.pt (0, v) = none := by
            intro b hb v hv
            rw [ha.slot_eq (.inl fun htouch => hhead b hb v ⟨htouch, hv⟩)]
            exact hempty b (List.mem_cons_of_mem ph hb) v hv
          obtain ⟨r, m', heq, hready', hright⟩ := ih (m := m₁.store ph.p_va (segment c ph))
            (fun b hb => hload b (List.mem_cons_of_mem ph hb)) (hready.store _ _) hlater htail
          refine ⟨r, m', heq, hready', fun hr => ?_⟩
          obtain ⟨hrest, hframe⟩ := hright hr
          have hmapped := ha.mapped hsized
          have hhere := right_store (c := c) hready hmapped hsized hfits
          -- The pages of this segment are mapped now, so the later segments leave them alone.
          have hstays : ∀ i < ph.p_memsz, image m' (ph.p_va + i) =
              image (m₁.store ph.p_va (segment c ph)) (ph.p_va + i) := by
            intro i hi
            refine hframe _ (lt_of_lt_of_le (Nat.add_lt_add_left hi _) hmapped.low) ?_
            obtain ⟨pg, -, hpg⟩ := ha.page rfl _ (touches_of_mem hi)
            rw [store_pt, hpg]
            exact Option.some_ne_none pg
          refine ⟨fun b hb => ?_, fun x hx hslot => ?_⟩
          · rcases List.mem_cons.mp hb with rfl | hb
            · refine ⟨fun i hi => ?_, fun i hle hi => ?_⟩
              · rw [hstays i (lt_of_lt_of_le hi hsized.2.2)]
                exact hhere.file i hi
              · rw [hstays i hi]
                exact hhere.zero i hle hi
            · exact hrest b hb
          · have hslot₁ : slots m₁.pt (0, x / PAGESIZE) ≠ none := by
              rw [ha.slot_eq (.inr ⟨id, hslot⟩)]
              exact hslot
            have houtside : ¬(ph.p_va ≤ x ∧ x < ph.p_va + (segment c ph).length) := by
              rw [length_segment hsized hfits]
              rintro ⟨hle, hlt⟩
              refine hslot (hempty ph List.mem_cons_self _ ?_)
              have : Touches ph ((ph.p_va + (x - ph.p_va)) / PAGESIZE) := touches_of_mem (by omega)
              rwa [Nat.add_sub_cancel' hle] at this
            rw [hframe x hx hslot₁, image_store _ hready (by rw [length_segment hsized hfits]; exact hmapped) hx,
              if_neg houtside, ha.image_eq h.toOrderly hx hslot]
        · have hr := hshort hfits
          rw [if_pos hr]
          exact ⟨r, _, rfl, hready.store _ _, fun he => absurd (he ▸ hr) (lt_irrefl 0)⟩
    · rw [load_segment_unsized hsized]
      exact ⟨E_NOEXEC, m, rfl, h, fun he => absurd he (by decide)⟩

/-! ## A run in which a page is mapped again -/

/-- Whatever the segments are, the run ends, with its pages in order and what was lost still lost. -/
theorem loadSegments_lost (hserves : Serves ld c) (phs : List ElfProgram)
    (hload : ∀ ph ∈ phs, ph.p_type = ELF_PTYPE_LOAD) {pg : ℕ} (h : Orderly m) (hlost : Pool.Lost pg (pool m)) :
    ∃ r m', loadSegments ld phs m = some (r, m') ∧ Orderly m' ∧ Pool.Lost pg (pool m') := by
  induction phs generalizing m with
  | nil => exact ⟨0, m, rfl, h, hlost⟩
  | cons ph phs ih =>
    unfold loadSegments
    rw [if_pos (hload ph List.mem_cons_self)]
    by_cases hsized : Sized ph
    · have hslot : ∀ v, Touches ph v → slots m.pt (0, v) = none ∨ True := fun _ _ => .inr trivial
      obtain ⟨ok, m₁, -, ha, hno, hyes⟩ := load_segment_cases hserves hsized h.shape h.free hslot
      have hlost₁ := hlost.puts ha.puts
      have horderly := ha.orderly h
      cases ok with
      | false =>
        rw [hno rfl]
        exact ⟨E_NOMEM, m₁, rfl, horderly, hlost₁⟩
      | true =>
        obtain ⟨r, bs, hrun, -⟩ := hyes rfl
        rw [hrun]
        dsimp only
        split
        · exact ⟨r, _, rfl, horderly.store _ _, hlost₁⟩
        · exact ih (m := m₁.store ph.p_va bs) (fun b hb => hload b (List.mem_cons_of_mem ph hb)) (horderly.store _ _)
            hlost₁
    · rw [load_segment_unsized hsized]
      exact ⟨E_NOEXEC, m, rfl, h, hlost⟩

/-- The pages that a run takes at most: a page of memory comes with up to three tables. -/
def need (phs : List ElfProgram) : ℕ := (phs.map fun ph => 4 * npages ph).sum

/-- A segment that the run comes to touches a page that is mapped already. -/
def Clash (c : List UInt8) (phs : List ElfProgram) (m : Space) : Prop :=
  ∃ ph ∈ reached c phs, ∃ v, Touches ph v ∧ slots m.pt (0, v) ≠ none

/-- A clash with the first segment loses the page. -/
theorem lost_of_head (hsized : Sized ph) (h : Ready all m) (hneed : 4 * npages ph ≤ m.free.length) {v : ℕ}
    (htouch : Touches ph v) (hslot : slots m.pt (0, v) ≠ none) :
    ∃ m', allocSegment ph m = some (true, m') ∧ Allocated True ph m m' true ∧
      ∃ pg, all pg ∧ Pool.Lost pg (pool m') := by
  have hagain : ∀ v, Touches ph v → slots m.pt (0, v) = none ∨ True := fun _ _ => .inr trivial
  obtain ⟨ok, m', heq, ha⟩ := allocSegment_spec hsized h.shape h.free hagain
  obtain ⟨rfl, -⟩ := ha.enough hneed
  obtain ⟨pg, hpg⟩ := Option.ne_none_iff_exists'.mp hslot
  exact ⟨m', heq, ha, pg, (h.exact.cover pg).mpr (.inr ⟨(0, v), hpg⟩), h.exact.lost ha.puts hpg (ha.page rfl v htouch)⟩

/-- With enough memory a page is lost once two segments touch it, or one that is mapped already. -/
theorem loadSegments_clash (hserves : Serves ld c) (phs : List ElfProgram)
    (hload : ∀ ph ∈ phs, ph.p_type = ELF_PTYPE_LOAD) (h : Ready all m) (hneed : need phs ≤ m.free.length)
    (hclash : Clash c phs m ∨ ¬Apart (reached c phs)) :
    ∃ r m' pg, loadSegments ld phs m = some (r, m') ∧ Orderly m' ∧ all pg ∧ Pool.Lost pg (pool m') := by
  induction phs generalizing m with
  | nil =>
    rcases hclash with ⟨ph, hmem, -⟩ | hapart
    · exact absurd hmem List.not_mem_nil
    · exact absurd List.Pairwise.nil hapart
  | cons ph phs ih =>
    have hneed' : 4 * npages ph + need phs ≤ m.free.length := hneed
    have hload' : ∀ b ∈ phs, b.p_type = ELF_PTYPE_LOAD := fun b hb => hload b (List.mem_cons_of_mem ph hb)
    unfold loadSegments
    rw [if_pos (hload ph List.mem_cons_self)]
    have hsized : Sized ph := by
      by_contra hnot
      have hnil : reached c (ph :: phs) = [] := by rw [reached, if_neg hnot]
      unfold Clash at hclash
      rw [hnil] at hclash
      rcases hclash with ⟨b, hb, -⟩ | hapart
      · exact absurd hb List.not_mem_nil
      · exact absurd List.Pairwise.nil hapart
    by_cases hhead : ∃ v, Touches ph v ∧ slots m.pt (0, v) ≠ none
    · obtain ⟨v, htouch, hslot⟩ := hhead
      obtain ⟨m₁, halloc, ha, pg, hall, hlost⟩ := lost_of_head hsized h (by omega) htouch hslot
      have hagain : ∀ v, Touches ph v → slots m.pt (0, v) = none ∨ True := fun _ _ => .inr trivial
      obtain ⟨ok, m₂, halloc', -, -, hyes⟩ := load_segment_cases hserves hsized h.shape h.free hagain
      obtain ⟨rfl, rfl⟩ := Prod.mk.inj (Option.some.inj (halloc.symm.trans halloc'))
      obtain ⟨r, bs, hrun, -⟩ := hyes rfl
      have horderly := (ha.orderly h.toOrderly).store ph.p_va bs
      rw [hrun]
      dsimp only
      split
      · exact ⟨r, _, pg, rfl, horderly, hall, hlost⟩
      · obtain ⟨r, m', heq, horderly', hlost'⟩ := loadSegments_lost hserves phs hload'
          (m := m₁.store ph.p_va bs) horderly hlost
        exact ⟨r, m', pg, heq, horderly', hall, hlost'⟩
    · have hempty : ∀ v, Touches ph v → slots m.pt (0, v) = none ∨ False := by
        intro v hv
        by_contra hne
        exact hhead ⟨v, hv, fun he => hne (.inl he)⟩
      obtain ⟨ok, m₁, -, ha, -, hyes⟩ := load_segment_cases hserves hsized h.shape h.free hempty
      obtain ⟨rfl, hleft⟩ := ha.enough (by omega)
      -- The clash is with a later segment, so the run comes to it.
      have hfits : Fits c ph := by
        by_contra hnot
        have hone : reached c (ph :: phs) = [ph] := by rw [reached, if_pos hsized, if_neg hnot]
        unfold Clash at hclash
        rw [hone] at hclash
        rcases hclash with ⟨b, hb, v, hv⟩ | hapart
        · exact hhead ⟨v, List.mem_singleton.mp hb ▸ hv⟩
        · exact absurd (List.pairwise_singleton _ _) hapart
      have hreached : reached c (ph :: phs) = ph :: reached c phs := by
        rw [reached, if_pos hsized, if_pos hfits]
      obtain ⟨r, bs, hrun, -, hdone⟩ := hyes rfl
      obtain ⟨rfl, rfl⟩ := hdone hfits
      rw [hrun]
      dsimp only
      rw [if_neg (lt_irrefl 0)]
      refine ih hload' ((ha.ready h).store _ _) (by show need phs ≤ m₁.free.length; omega) ?_
      have hmapped : ∀ v, Touches ph v → slots m₁.pt (0, v) ≠ none := by
        intro v hv
        obtain ⟨pg, -, hpg⟩ := ha.page rfl v hv
        rw [hpg]
        exact Option.some_ne_none pg
      unfold Clash at hclash
      rw [hreached] at hclash
      rcases hclash with ⟨b, hb, v, hv, hslot⟩ | hapart
      · rcases List.mem_cons.mp hb with rfl | hb
        · exact absurd ⟨v, hv, hslot⟩ hhead
        · exact .inl ⟨b, hb, v, hv, ha.puts.held_ne_none hslot⟩
      · by_cases htail : Apart (reached c phs)
        · have : ¬∀ b ∈ reached c phs, ∀ v, ¬(Touches ph v ∧ Touches b v) := fun hall =>
            hapart (List.pairwise_cons.mpr ⟨hall, htail⟩)
          push Not at this
          obtain ⟨b, hb, v, hv, hbv⟩ := this
          exact .inl ⟨b, hb, v, hbv, hmapped v hv⟩
        · exact .inr htail

/-! ## `proc::load` with a `memfile_loader` -/

theorem serves_memfile (data : List UInt8) : Serves (memfile_loader (some data) true) data where
  pagetable := rfl
  inside off _ hoff := by
    refine ⟨data.drop off, if_neg (by omega), List.prefix_rfl, ?_⟩
    rw [List.length_drop]
    exact Nat.min_le_right _ _
  behind off _ hoff := .inr (if_pos hoff)

/-- Segments of other types are passed over. -/
theorem loadSegments_filter (ld : ProcLoader) (phs : List ElfProgram) (m : Space) :
    loadSegments ld phs m = loadSegments ld (phs.filter fun ph => ph.p_type = ELF_PTYPE_LOAD) m := by
  induction phs generalizing m with
  | nil => rfl
  | cons ph phs ih =>
    rw [List.filter_cons]
    by_cases hload : ph.p_type = ELF_PTYPE_LOAD
    · rw [if_pos (by simpa using hload), loadSegments, loadSegments, if_pos hload, if_pos hload]
      cases load_segment ld ph m with
      | none => rfl
      | some r => simp only [ih]
    · rw [if_neg (by simpa using hload), loadSegments, if_neg hload, ih]

/-- The segments to load. -/
def loadable (data : List UInt8) : List ElfProgram :=
  (programs (page data)).filter fun ph => ph.p_type = ELF_PTYPE_LOAD

/-- The header checks accept the file. -/
def Accepted (data : List UInt8) : Prop := 64 ≤ data.length ∧ elfOk (page data) data.length = true

/-- A new page table, and an allocator in order. -/
structure Fresh (m : Space) : Prop where
  empty : ∀ level i, Low (level, i) → m.pt level i = none
  nodup : m.free.Nodup
  aligned : ∀ pg ∈ m.free, pg % PAGESIZE = 0

/-- The page is mapped at exactly one address, or it is a table of the page table, in exactly one entry. -/
def Kept (pt : PageTable) (pg : ℕ) : Prop :=
  (∃! va, va < VA_LOWEND ∧ va % PAGESIZE = 0 ∧ (find pt va).pa = some pg) ∨
    ∃! s : ℕ × ℕ, 0 < s.1 ∧ slots pt s = some pg

/-- What `load` promises of a file, for whatever memory there is: it returns, if it returns 0 every segment is
right, and each page that was free is either free again or kept. -/
def LoadsRight (data : List UInt8) : Prop :=
  ∀ m, Fresh m → ∃ r m', load (memfile_loader (some data) true) m = some (r, m') ∧
    (r = 0 → ∀ ph ∈ loadable data, Right data ph m') ∧ ∀ pg ∈ m.free, pg ∈ m'.free ↔ ¬Kept m'.pt pg

theorem Fresh.ready (h : Fresh m) : Ready (· ∈ m.free) m := by
  have hslots : ∀ s, slots m.pt s = none := by
    intro s
    unfold slots
    split
    · rename_i hlow
      rw [h.empty s.1 s.2 hlow]
      rfl
    · rfl
  have hnone : ∀ s pg, slots m.pt s ≠ some pg := fun s pg => by
    rw [hslots s]
    exact (Option.some_ne_none pg).symm
  refine ⟨⟨⟨fun level i pe _ hlow hpe => ?_, fun level i _ hlow hne => ?_⟩, h.aligned,
    fun s pg hpg => absurd hpg (hnone s pg)⟩, h.nodup, fun s pg hpg => absurd hpg (hnone s pg),
    fun s _ pg hpg => absurd hpg (hnone s pg), fun pg => ⟨.inl, ?_⟩⟩
  · rw [h.empty level i hlow] at hpe
    exact absurd hpe (Option.some_ne_none pe).symm
  · exact absurd (h.empty level i hlow) hne
  · rintro (hfree | ⟨s, hs⟩)
    · exact hfree
    · exact absurd hs (hnone s pg)

/-- A kept page is in an entry. -/
theorem Orderly.slot_of_kept (h : Orderly m) {pg : ℕ} (hkept : Kept m.pt pg) : ∃ s, slots m.pt s = some pg := by
  rcases hkept with ⟨va, ⟨hva, halign, hpa⟩, -⟩ | ⟨s, ⟨-, hs⟩, -⟩
  · obtain ⟨pg', hslot, -, rfl⟩ := h.slot hva hpa
    rw [halign, Nat.add_zero]
    exact ⟨_, hslot⟩
  · exact ⟨s, hs⟩

/-- A page in an entry is kept, since it is in no other. -/
theorem Ready.kept (h : Ready all m) {s : ℕ × ℕ} {pg : ℕ} (hs : slots m.pt s = some pg) : Kept m.pt pg := by
  obtain ⟨level, i⟩ := s
  rcases Nat.eq_zero_or_pos level with rfl | hpos
  · have hlow : Low (0, i) := by
      by_contra hnot
      unfold slots at hs
      rw [if_neg hnot] at hs
      exact absurd hs (Option.some_ne_none pg).symm
    have hva : i * PAGESIZE < VA_LOWEND := hlow.2
    have hpa : (find m.pt (i * PAGESIZE)).pa = some pg := by
      rw [h.shape.find_slots hva, Nat.mul_div_cancel i (by decide), hs, Nat.mul_mod_left]
      rfl
    exact .inl ⟨i * PAGESIZE, ⟨hva, Nat.mul_mod_left i PAGESIZE, hpa⟩,
      fun va hother => h.pa_inj hother.1 hva hother.2.2 hpa⟩
  · exact .inr ⟨(level, i), ⟨hpos, hs⟩, fun t ht => h.exact.inj _ _ _ ht.2 hs⟩

theorem load_accepted {data : List UInt8} (hacc : Accepted data) (m : Space) :
    load (memfile_loader (some data) true) m =
      loadSegments (memfile_loader (some data) true) (loadable data)
        { m with entry_rip_ := getLE (page data) 0x18 8 } := by
  obtain ⟨hlen, hok⟩ := hacc
  have hpage : (memfile_loader (some data) true).get_page 0 = .ok data := if_neg (by omega)
  unfold load
  rw [hpage]
  dsimp only
  rw [if_neg (by simp [hok]; omega), loadSegments_filter]
  rfl

theorem loadable_load {data : List UInt8} : ∀ ph ∈ loadable data, ph.p_type = ELF_PTYPE_LOAD := fun _ hph =>
  of_decide_eq_true (List.mem_filter.mp hph).2

/-- The entry point plays no part. -/
theorem Ready.entry {all : ℕ → Prop} {m : Space} (h : Ready all m) (entry : ℕ) :
    Ready all { m with entry_rip_ := entry } :=
  ⟨⟨h.shape, h.free, h.held⟩, h.exact⟩

theorem loadsRight_of_apart {data : List UInt8} (hacc : Accepted data) (hapart : Apart (reached data (loadable data))) :
    LoadsRight data := by
  intro m hfresh
  have hload := load_accepted hacc m
  generalize getLE (page data) 0x18 8 = entry at hload
  have hstart := hfresh.ready.entry entry
  have hempty : ∀ ph ∈ reached data (loadable data), ∀ v, Touches ph v → slots m.pt (0, v) = none := by
    intro ph _ v _
    unfold slots
    split
    · rename_i hlow
      rw [hfresh.empty 0 v hlow]
      rfl
    · rfl
  obtain ⟨r, m', heq, hready', hright⟩ := loadSegments_right (serves_memfile data) (loadable data) loadable_load hstart
    hempty hapart
  refine ⟨r, m', hload.trans heq, fun hr => (hright hr).1, fun pg hpg => ⟨fun hfree hkept => ?_,
    fun hnot => ?_⟩⟩
  · obtain ⟨s, hs⟩ := hready'.slot_of_kept hkept
    exact hready'.exact.apart s pg hs hfree
  · rcases (hready'.exact.cover pg).mp hpg with hfree | ⟨s, hs⟩
    · exact hfree
    · exact absurd (hready'.kept hs) hnot

/-- An empty page table, and `n` free pages. -/
def blank (n : ℕ) : Space := ⟨0, fun _ _ => none, (List.range n).map (· * PAGESIZE), fun _ => 0⟩

theorem fresh_blank (n : ℕ) : Fresh (blank n) := by
  refine ⟨fun _ _ _ => rfl, ?_, fun pg hpg => ?_⟩
  · refine List.nodup_range.map fun a b hab => ?_
    exact Nat.eq_of_mul_eq_mul_right (by decide : 0 < PAGESIZE) hab
  · obtain ⟨i, -, rfl⟩ := List.mem_map.mp hpg
    exact Nat.mul_mod_left i PAGESIZE

theorem apart_of_loadsRight {data : List UInt8} (hacc : Accepted data) (h : LoadsRight data) :
    Apart (reached data (loadable data)) := by
  by_contra hclash
  have hfresh := fresh_blank (need (loadable data))
  have hload := load_accepted hacc (blank (need (loadable data)))
  generalize getLE (page data) 0x18 8 = entry at hload
  obtain ⟨r, m', pg, hrun, horderly, hpg, hlost⟩ := loadSegments_clash (serves_memfile data) (loadable data)
    loadable_load (hfresh.ready.entry entry) (by simp [blank]) (.inr hclash)
  obtain ⟨r', m'', hload', -, hpages⟩ := h _ hfresh
  rw [hload, hrun] at hload'
  obtain ⟨-, rfl⟩ := Prod.mk.inj (Option.some.inj hload')
  -- The lost page is neither free nor kept.
  refine hlost.1 ((hpages pg hpg).mpr fun hkept => ?_)
  obtain ⟨s, hs⟩ := horderly.slot_of_kept hkept
  exact hlost.2 s hs

/-- **`load` is right exactly if no two of the segments that it comes to touch a common page.** -/
theorem loadsRight_iff (data : List UInt8) (hacc : Accepted data) :
    LoadsRight data ↔ Apart (reached data (loadable data)) :=
  ⟨apart_of_loadsRight hacc, loadsRight_of_apart hacc⟩

/-! ## Two segments of one byte -/

/-- A number in `w` bytes -/
def le (w v : ℕ) : List UInt8 := (List.range w).map fun i => UInt8.ofNat (v / 256 ^ i)

def elfHeader (phnum : ℕ) : List UInt8 :=
  le 4 0x464C457F ++ le 12 0 ++ le 2 2 ++ le 6 0 ++ le 8 0x1000 ++ le 8 64 ++ le 14 0 ++ le 2 56 ++ le 2 phnum ++
    le 2 64 ++ le 4 0

/-- The program header of a segment of `sz` bytes from `off` on. -/
def elfSegment (off va sz : ℕ) : List UInt8 :=
  le 4 1 ++ le 4 0 ++ le 8 off ++ le 8 va ++ le 8 0 ++ le 8 sz ++ le 8 sz ++ le 8 0

def twoSegments (va va' : ℕ) : List UInt8 := elfHeader 2 ++ elfSegment 0 va 1 ++ elfSegment 0 va' 1

theorem accepted_twoSegments : Accepted (twoSegments 0x1000 0x2000) ∧ Accepted (twoSegments 0x1000 0x1800) := by
  unfold Accepted
  decide +kernel

theorem loadable_twoPages : loadable (twoSegments 0x1000 0x2000) = [⟨1, 0, 0x1000, 1, 1⟩, ⟨1, 0, 0x2000, 1, 1⟩] := by
  rfl

theorem loadable_onePage : loadable (twoSegments 0x1000 0x1800) = [⟨1, 0, 0x1000, 1, 1⟩, ⟨1, 0, 0x1800, 1, 1⟩] := by
  rfl

theorem reached_twoPages : reached (twoSegments 0x1000 0x2000) (loadable (twoSegments 0x1000 0x2000)) =
    [⟨1, 0, 0x1000, 1, 1⟩, ⟨1, 0, 0x2000, 1, 1⟩] := by
  rw [loadable_twoPages]
  exact reached_eq_self (by decide +kernel)

theorem reached_onePage : reached (twoSegments 0x1000 0x1800) (loadable (twoSegments 0x1000 0x1800)) =
    [⟨1, 0, 0x1000, 1, 1⟩, ⟨1, 0, 0x1800, 1, 1⟩] := by
  rw [loadable_onePage]
  exact reached_eq_self (by decide +kernel)

theorem loadsRight_iff_twoPages :
    Accepted (twoSegments 0x1000 0x2000) ∧ LoadsRight (twoSegments 0x1000 0x2000) := by
  refine ⟨accepted_twoSegments.1, (loadsRight_iff _ accepted_twoSegments.1).mpr ?_⟩
  rw [reached_twoPages]
  refine List.pairwise_pair.mpr fun v hv => ?_
  unfold Touches PAGESIZE at hv
  dsimp only at hv
  omega

/-- No address is in both segments. -/
def RangesApart (a b : ElfProgram) : Prop :=
  ∀ x, ¬((a.p_va ≤ x ∧ x < a.p_va + a.p_memsz) ∧ b.p_va ≤ x ∧ x < b.p_va + b.p_memsz)

/-- Two segments in one page: the byte of the first is lost. -/
theorem loadsRight_fails : ¬∀ data, Accepted data → (loadable data).Pairwise RangesApart →
    (∀ ph ∈ loadable data, ph.p_va + ph.p_memsz ≤ VA_LOWEND) → LoadsRight data := by
  intro h
  have hright : LoadsRight (twoSegments 0x1000 0x1800) := by
    refine h _ accepted_twoSegments.2 ?_ ?_
    · rw [loadable_onePage]
      refine List.pairwise_pair.mpr fun x hx => ?_
      dsimp only at hx
      omega
    · rw [loadable_onePage]
      decide
  have hapart := apart_of_loadsRight accepted_twoSegments.2 hright
  rw [reached_onePage] at hapart
  refine List.pairwise_pair.mp hapart 1 ?_
  unfold Touches PAGESIZE
  decide

end Chickadee.Elf
