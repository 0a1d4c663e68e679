import Chickadee.Ptable.Translate

/-!
# `try_map`

The table pages that are missing on the path of the address are added one by one, each a page of zeros below the
entry at which the `vmiter` stands, and the entry at level 0 is written last. `knew` gives pages that are in no
table, in the order of a list, and null after them.
-/

namespace Chickadee.Ptable

open Lib
open Vm (PAGESIZE VA_LOWMAX VA_LOWEND VA_HIGHMIN pagesize va_is_canonical)

/-- The entry for a new table page. -/
def tableEntry (pt : ℕ) : BitVec 64 := BitVec.ofNat 64 pt ||| PTE_P ||| PTE_W ||| PTE_U

namespace Vmiter

/-- The memory with a new table page `pt` at the entry `p`. -/
def addTable (m : Mem) (pt : ℕ) (p : ℕ × ℕ) : Mem := (m.clear pt).write p (tableEntry pt)

/-- `while (level_ > 0 && perm)`: false where `knew` has no page. A failed assertion, a panic and a store to
`zero_pe` have no result. -/
def tableLoop (perm : BitVec 64) : List ℕ → Mem → Vmiter → Option (Mem × Vmiter × Bool)
  | [], m, it =>
    if it.level_ > 0 ∧ perm ≠ 0#64 then
      if m.read it.pep_ &&& PTE_P ≠ 0#64 then none else some (m, it, false)
    else some (m, it, true)
  | pt :: news, m, it =>
    if it.level_ > 0 ∧ perm ≠ 0#64 then
      if m.read it.pep_ &&& PTE_P ≠ 0#64 ∨ KTEXT_PA ≤ pt then none
      else
        it.pep_.bind fun p =>
          (down (addTable m pt p) it).bind fun it' => tableLoop perm news (addTable m pt p) it'
    else some (m, it, true)

/-- The assertions of `try_map`. -/
def mapAsserts (it : Vmiter) (pa perm : BitVec 64) : Prop :=
  it.va_ % PAGESIZE = 0 ∧
  (perm &&& PTE_P ≠ 0#64 → pa ≠ -1#64 ∧ pa &&& PTE_PAMASK = pa) ∧
  (perm &&& PTE_P = 0#64 → pa &&& PTE_P = 0#64) ∧
  perm &&& ~~~it.perm_ &&& PTE_PWU = 0#64

instance (it : Vmiter) (pa perm : BitVec 64) : Decidable (mapAsserts it pa perm) :=
  inferInstanceAs (Decidable (_ ∧ (_ → _) ∧ (_ → _) ∧ _))

/-- The physical address that `try_map(pa, perm)` maps: `try_map(-1, 0)` is `try_map(0, 0)`. -/
def mapPa (pa perm : BitVec 64) : BitVec 64 := if pa = -1#64 ∧ perm = 0#64 then 0#64 else pa

/-- The end of `try_map`: the store of the entry at level 0. -/
def mapEntry (e : BitVec 64) (m : Mem) (it : Vmiter) : Option (Mem × Vmiter × ℤ) :=
  if it.level_ = 0 then it.pep_.map fun p => (m.write p e, it, 0) else some (m, it, 0)

/-- `try_map(pa, perm)`, with the pages that `knew` gives. -/
def try_map (m : Mem) (it : Vmiter) (pa : BitVec 64) (perm : BitVec 32) (news : List ℕ) :
    Option (Mem × Vmiter × ℤ) :=
  let perm := perm.signExtend 64
  if mapAsserts it (mapPa pa perm) perm then
    (tableLoop perm news m it).bind fun r =>
      if r.2.2 then mapEntry (mapPa pa perm ||| perm) r.1 r.2.1 else some (r.1, r.2.1, -1)
  else none

/-! ## The entry for a new table -/

section

variable {pt : ℕ}

theorem and_low_bits {x : BitVec 64} (hx : x.toNat % PAGESIZE = 0) (mask : BitVec 64) (hmask : mask &&& 0xFFF#64 = mask) :
    x &&& mask = 0#64 := by
  have hlow : x &&& 0xFFF#64 = 0#64 := by
    apply BitVec.eq_of_toNat_eq
    rw [BitVec.toNat_and]
    show x.toNat &&& 2 ^ 12 - 1 = 0
    rw [Nat.and_two_pow_sub_one_eq_mod]
    exact hx
  rw [← hmask, BitVec.and_comm mask, ← BitVec.and_assoc, hlow, BitVec.zero_and]

/-- The bits that `PTE_PAMASK` drops are the low ones and those from 52 on. -/
theorem and_pamask {x : BitVec 64} (hx : x.toNat % PAGESIZE = 0) (hlt : x.toNat < 2 ^ 52) : x &&& PTE_PAMASK = x := by
  calc x &&& PTE_PAMASK
      = x &&& PTE_PAMASK ||| x &&& 0xFFF#64 := by rw [and_low_bits hx 0xFFF#64 (by decide), BitVec.or_zero]
    _ = x &&& 0xFFFFFFFFFFFFF#64 := by
        rw [← BitVec.and_or_distrib_left]
        rfl
    _ = x := by
        apply BitVec.eq_of_toNat_eq
        rw [BitVec.toNat_and]
        show x.toNat &&& 2 ^ 52 - 1 = x.toNat
        rw [Nat.and_two_pow_sub_one_eq_mod, Nat.mod_eq_of_lt hlt]

theorem toNat_ofNat_page (hpt : pt < KTEXT_PA) : (BitVec.ofNat 64 pt).toNat = pt := by
  rw [BitVec.toNat_ofNat]
  exact Nat.mod_eq_of_lt (lt_trans hpt (by decide))

theorem tableEntry_eq (pt : ℕ) : tableEntry pt = BitVec.ofNat 64 pt ||| PTE_PWU := by
  unfold tableEntry
  rw [BitVec.or_assoc, BitVec.or_assoc]
  rfl

theorem subtable_tableEntry (hpt : pt < KTEXT_PA) (hpage : pt % PAGESIZE = 0) : subtable (tableEntry pt) = some pt := by
  have hx := toNat_ofNat_page hpt
  have hlow : ∀ mask : BitVec 64, mask &&& 0xFFF#64 = mask → BitVec.ofNat 64 pt &&& mask = 0#64 :=
    and_low_bits (by rw [hx, hpage])
  have hp : tableEntry pt &&& (PTE_P ||| PTE_PS) = PTE_P := by
    rw [tableEntry_eq, BitVec.and_or_distrib_right, hlow _ (by decide)]
    decide
  have hpa : tableEntry pt &&& PTE_PAMASK = BitVec.ofNat 64 pt := by
    have hdisjoint : PTE_PWU &&& PTE_PAMASK = 0#64 := by decide
    rw [tableEntry_eq, BitVec.and_or_distrib_right, hdisjoint, BitVec.or_zero]
    exact and_pamask (by rw [hx, hpage]) (by rw [hx]; exact lt_trans hpt (by decide))
  unfold subtable
  rw [if_pos hp, hpa, hx]

end

/-! ## A new table page -/

/-- Pages that may be made table pages: no path meets one of them. -/
structure Fresh (m : Mem) (pt : ℕ) (news : List ℕ) : Prop where
  page : ∀ p ∈ news, p % PAGESIZE = 0
  nodup : news.Nodup
  notTable : ∀ p ∈ news, ∀ va level, tableAt m pt va level ≠ some p

section

variable {m : Mem} {pt va t p : ℕ} {it : Vmiter} {news : List ℕ}

theorem addTable_frame {i u j : ℕ} (hu : u ≠ p) (hne : u ≠ t ∨ j ≠ i) : addTable m p (t, i) u j = m u j := by
  unfold addTable
  rw [Mem.write_of_ne hne, Mem.clear_of_ne hu]

theorem addTable_new {i : ℕ} (hpt : t ≠ p) (j : ℕ) : addTable m p (t, i) p j = 0#64 := by
  unfold addTable
  rw [Mem.write_of_ne (.inl hpt.symm), Mem.clear_self]

theorem Stop.ne_fresh (hs : Stop m pt va 3 pt initial_perm it t) (hfresh : Fresh m pt (p :: news)) : t ≠ p := by
  rintro rfl
  exact hfresh.notTable t List.mem_cons_self va it.level_ hs.table

theorem addTable_link (htree : IsTree m pt) (hs : Stop m pt va 3 pt initial_perm it t) (hlevel : it.level_ ≠ 0)
    (hfresh : Fresh m pt (p :: news)) (hp : p < KTEXT_PA) :
    Trie.Link subtable digit m (addTable m p (t, pageindex va it.level_)) pt 3 va (3 - it.level_) t p := by
  have hle := hs.level_le
  have hindex : digit va (3 - it.level_) = pageindex va it.level_ := by
    unfold digit
    rw [show 3 - (3 - it.level_) = it.level_ by omega]
  have htp := hs.ne_fresh hfresh
  refine ⟨by omega, hs.table, ?_, ?_, ?_, ?_, ?_⟩
  · rw [hindex]
    exact hs.leaf.resolve_left hlevel
  · rw [hindex]
    unfold addTable
    rw [Mem.write_self]
    exact subtable_tableEntry hp (hfresh.page p List.mem_cons_self)
  · intro j
    rw [addTable_new htp]
    exact subtable_zero
  · intro k d hd
    rw [node_eq_tableAt hd]
    exact hfresh.notTable p List.mem_cons_self k (3 - d)
  · intro u j hu hne
    rw [hindex] at hne
    exact addTable_frame hu hne

/-- After the store the loop of `down()` stands on the first entries of the new page. -/
theorem down_addTable (hs : Stop m pt va 3 pt initial_perm it t) {level : ℕ} (hlevel : it.level_ = level + 1)
    (htp : t ≠ p) (hpage : p % PAGESIZE = 0) (hp : p < KTEXT_PA) :
    down (addTable m p (t, pageindex va it.level_)) it = some
      ⟨pt, some (p, pageindex va level), level, it.perm_ &&& (tableEntry p ||| ~~~PTE_PWU), va⟩ := by
  have hread : (addTable m p (t, pageindex va it.level_)).read it.pep_ = tableEntry p := by
    rw [hs.pep_eq]
    exact Mem.write_self _ _ _ _
  have hnew := addTable_new (m := m) (i := pageindex va it.level_) htp
  unfold down
  rw [hs.pt_eq, hs.va_eq, hlevel, downLoop_table (by rw [← hlevel, hread, subtable_tableEntry hp hpage])
    (lt_trans hp (by decide)), ← hlevel, hread, downLoop_leaf (.inr (by rw [read_some, hnew, subtable_zero])),
    Option.bind_some, read_some, hnew]
  exact if_pos (by simp [inMemory])

/-- It stands where a new `vmiter` would. -/
theorem seek_addTable (htree : IsTree m pt) (hva : va_is_canonical va = true)
    (hs : Stop m pt va 3 pt initial_perm it t) (hfresh : Fresh m pt (p :: news)) {it' : Vmiter}
    (hdown : down (addTable m p (t, pageindex va it.level_)) it = some it') :
    seek (addTable m p (t, pageindex va it.level_)) pt va = some it' := by
  unfold down at hdown
  rw [Option.bind_eq_some_iff, hs.pt_eq, hs.va_eq, hs.pep_eq] at hdown
  obtain ⟨it'', hloop, hmem⟩ := hdown
  split at hmem
  · cases hmem
    rw [hs.seek_eq hva rfl fun l u hlt hl hu => ?_, hloop]
    refine addTable_frame ?_ (.inl ?_)
    · rintro rfl
      exact hfresh.notTable u List.mem_cons_self va l hu
    · rintro rfl
      have := (htree.level_eq hs.level_le hl hs.table hu).1
      omega
  · cases hmem

/-- A new table page maps nothing, and nothing was mapped where it is. -/
theorem translate_addTable (htree : IsTree m pt) (hs : Stop m pt va 3 pt initial_perm it t) (hlevel : it.level_ ≠ 0)
    (habsent : m t (pageindex va it.level_) &&& PTE_P = 0#64) (hfresh : Fresh m pt (p :: news)) (hp : p < KTEXT_PA)
    (x : ℕ) : translate (addTable m p (t, pageindex va it.level_)) pt x = translate m pt x := by
  have hle := hs.level_le
  have htp := hs.ne_fresh hfresh
  cases hx : va_is_canonical x with
  | false => rw [translate_of_not_canonical hx, translate_of_not_canonical hx]
  | true =>
    rw [translate_of_canonical hx, translate_of_canonical hx]
    by_cases hon : ∀ l, it.level_ ≤ l → l ≤ 3 → pageindex x l = pageindex va l
    · -- the path goes through the entry: it ended there, and now it ends in the new page
      have hbefore : walk m x 3 pt = none := by
        have ht : tableAt m pt x it.level_ = some t := by
          rw [tableAt_congr fun l hlt hl => hon l hlt.le hl, hs.table]
        refine walk_root_eq_none hs.level_le ht ?_
        rw [walk_leaf, hon _ le_rfl hle]
        · exact if_neg (by rw [habsent]; decide)
        · rw [hon _ le_rfl hle]
          exact hs.leaf
      have hafter : walk (addTable m p (t, pageindex va it.level_)) x 3 pt = none := by
        have hnode := (addTable_link htree hs hlevel hfresh hp).node_on htree
          fun j hj => hon (3 - j) (by omega) (by omega)
        rw [node_eq_tableAt (by omega), show 3 - (3 - it.level_ + 1) = it.level_ - 1 by omega] at hnode
        refine walk_root_eq_none (by omega) hnode ?_
        have hnew := addTable_new (m := m) (i := pageindex va it.level_) htp
        rw [walk_leaf (.inr (by rw [hnew, subtable_zero])), hnew]
        exact if_neg (by decide)
      rw [hbefore, hafter]
    · rw [walk_congr le_rfl (tableAt_three m pt x) fun l u hl hu => ?_]
      refine addTable_frame ?_ ?_
      · rintro rfl
        exact hfresh.notTable u List.mem_cons_self x l hu
      · by_contra hsame
        simp only [not_or, ne_eq, not_not] at hsame
        obtain ⟨rfl, hindex⟩ := hsame
        obtain ⟨rfl, habove⟩ := htree.level_eq hle hl hs.table hu
        refine hon fun l hlt hll => ?_
        by_cases heq : l = it.level_
        · rw [heq, hindex]
        · exact habove l (by omega) hll

/-- What the pages that are added leave as it was. -/
structure Keeps (m : Mem) (pt va : ℕ) (m' : Mem) (it' : Vmiter) : Prop where
  seek : Vmiter.seek m' pt va = some it'
  tree : IsTree m' pt
  translate : ∀ x, Ptable.translate m' pt x = Ptable.translate m pt x

/-- One turn of the loop. -/
theorem keeps_addTable (htree : IsTree m pt) (h : seek m pt va = some it) (hlevel : it.level_ > 0)
    (habsent : m.read it.pep_ &&& PTE_P = 0#64) (hfresh : Fresh m pt (p :: news)) (hp : p < KTEXT_PA) {i : ℕ × ℕ}
    (hpep : it.pep_ = some i) {it' : Vmiter} (hdown : down (addTable m p i) it = some it') :
    Keeps m pt va (addTable m p i) it' ∧ Fresh (addTable m p i) pt news := by
  rcases seek_cases h with ⟨hva, t, hs⟩ | ⟨-, rfl⟩
  · have hi := hs.pep_eq
    rw [hpep] at hi
    cases hi
    rw [hpep] at habsent
    have hlink := addTable_link htree hs (by omega) hfresh hp
    refine ⟨⟨seek_addTable htree hva hs hfresh hdown, hlink.owned htree,
      translate_addTable htree hs (by omega) habsent hfresh hp⟩, ?_⟩
    obtain ⟨hnot, hnodup⟩ := List.nodup_cons.1 hfresh.nodup
    refine ⟨fun q hq => hfresh.page q (List.mem_cons_of_mem p hq), hnodup, fun q hq x l => ?_⟩
    refine hlink.fresh_of_ne htree (fun k d hd => ?_) (by rintro rfl; exact hnot hq) x (3 - l) (by omega)
    rw [node_eq_tableAt hd]
    exact hfresh.notTable q (List.mem_cons_of_mem p hq) k (3 - d)
  · cases hpep

theorem tableLoop_keeps {perm : BitVec 64} {m' : Mem} {it' : Vmiter} {ok : Bool} (htree : IsTree m pt)
    (h : seek m pt va = some it) (hfresh : Fresh m pt news)
    (hloop : tableLoop perm news m it = some (m', it', ok)) : Keeps m pt va m' it' := by
  induction news generalizing m it with
  | nil =>
    unfold tableLoop at hloop
    split at hloop
    · split at hloop
      · cases hloop
      · cases hloop
        exact ⟨h, htree, fun _ => rfl⟩
    · cases hloop
      exact ⟨h, htree, fun _ => rfl⟩
  | cons p news ih =>
    unfold tableLoop at hloop
    split at hloop
    · rename_i hcond
      split at hloop
      · cases hloop
      · rename_i hassert
        simp only [not_or, ne_eq, not_not, not_le] at hassert
        obtain ⟨i, hpep, hloop⟩ := Option.bind_eq_some_iff.1 hloop
        obtain ⟨it₁, hdown, hloop⟩ := Option.bind_eq_some_iff.1 hloop
        obtain ⟨hkeeps, hfresh₁⟩ := keeps_addTable htree h hcond.1 hassert.1 hfresh hassert.2 hpep hdown
        have hrest := ih hkeeps.tree hkeeps.seek hfresh₁ hloop
        exact ⟨hrest.seek, hrest.tree, fun x => by rw [hrest.translate, hkeeps.translate]⟩
    · cases hloop
      exact ⟨h, htree, fun _ => rfl⟩

/-! ## The entry at level 0 -/

/-- No entry on the path of another page is the one at level 0. -/
theorem leaf_off (htree : IsTree m pt) (hva : va_is_canonical va = true) (hlt : va < 2 ^ 64)
    (ht : tableAt m pt va 0 = some t) {x l u : ℕ} (hcanon : va_is_canonical x = true) (hx : x < 2 ^ 64)
    (hpage : x / PAGESIZE ≠ va / PAGESIZE) (hl : l ≤ 3) (hu : tableAt m pt x l = some u) :
    u ≠ t ∨ pageindex x l ≠ pageindex va 0 := by
  by_contra hsame
  simp only [not_or, ne_eq, not_not] at hsame
  obtain ⟨rfl, hindex⟩ := hsame
  obtain ⟨rfl, habove⟩ := htree.level_eq (by omega) hl ht hu
  refine hpage (page_eq_of_pageindex hlt hx hva hcanon fun l hl => ?_)
  by_cases hzero : l = 0
  · rw [hzero, hindex]
  · exact habove l (by omega) hl

/-- A store at level 0 changes the translation of one page. -/
theorem write_leaf (htree : IsTree m pt) (hva : va_is_canonical va = true) (hlt : va < 2 ^ 64)
    (hs : Stop m pt va 3 pt initial_perm it t) (hlevel : it.level_ = 0) (e : BitVec 64) :
    seek (m.write (t, pageindex va 0) e) pt va = some it ∧ IsTree (m.write (t, pageindex va 0) e) pt ∧
    ∀ x < 2 ^ 64, x / PAGESIZE ≠ va / PAGESIZE →
      translate (m.write (t, pageindex va 0) e) pt x = translate m pt x := by
  have ht := hs.table
  rw [hlevel] at ht
  refine ⟨?_, ?_, ?_⟩
  · rw [hs.seek_eq hva rfl fun l u hlt hl hu => ?_, downLoop_leaf (.inl hlevel), ← hs.pep_eq, ← hs.pt_eq, ← hs.va_eq]
    refine Mem.write_of_ne (.inl ?_)
    rintro rfl
    have := (htree.level_eq (by omega) hl ht hu).1
    omega
  · refine htree.congr fun k d hd => htree.node_eq (d := 3) (k := va) le_rfl ht hd ?_ (.inl hd)
    intro u j _ hne
    exact Mem.write_of_ne hne
  · intro x hx hpage
    cases hcanon : va_is_canonical x with
    | false => rw [translate_of_not_canonical hcanon, translate_of_not_canonical hcanon]
    | true =>
      rw [translate_of_canonical hcanon, translate_of_canonical hcanon,
        walk_congr le_rfl (tableAt_three m pt x) fun l u hl hu => ?_]
      exact Mem.write_of_ne (leaf_off htree hva hlt ht hcanon hx hpage hl hu)

/-- **`try_map` leaves the `vmiter` where a new one would be, the tables a tree, and the translation of every other
page as it was.** -/
theorem try_map_keeps {pa : BitVec 64} {perm : BitVec 32} {m' : Mem} {it' : Vmiter} {r : ℤ} (htree : IsTree m pt)
    (hlt : va < 2 ^ 64) (h : seek m pt va = some it) (hfresh : Fresh m pt news)
    (hmap : try_map m it pa perm news = some (m', it', r)) : seek m' pt va = some it' ∧ IsTree m' pt ∧
    ∀ x < 2 ^ 64, x / PAGESIZE ≠ va / PAGESIZE → translate m' pt x = translate m pt x := by
  unfold try_map at hmap
  simp only at hmap
  split at hmap
  · obtain ⟨s, hloop, hend⟩ := Option.bind_eq_some_iff.1 hmap
    have hkeeps := tableLoop_keeps htree h hfresh hloop
    split at hend
    · unfold mapEntry at hend
      split at hend
      · rename_i hlevel
        rcases seek_cases hkeeps.seek with ⟨hva, t, hs⟩ | ⟨-, heq⟩
        · rw [hs.pep_eq, Option.map_some, hlevel] at hend
          cases hend
          obtain ⟨hseek, htree', htr⟩ := write_leaf hkeeps.tree hva hlt hs hlevel _
          exact ⟨hseek, htree', fun x hx hpage => by rw [htr x hx hpage, hkeeps.translate]⟩
        · rw [heq] at hlevel
          cases hlevel
      · cases hend
        exact ⟨hkeeps.seek, hkeeps.tree, fun x _ _ => hkeeps.translate x⟩
    · cases hend
      exact ⟨hkeeps.seek, hkeeps.tree, fun x _ _ => hkeeps.translate x⟩
  · cases hmap

end

end Vmiter

end Chickadee.Ptable
