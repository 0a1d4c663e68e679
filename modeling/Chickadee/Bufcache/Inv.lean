import Chickadee.Bufcache.Machine

/-!
# The invariant of the buffer cache

Everything is counted. For an entry there are the tasks that reference it, read it, hold it, may
write it, hold its write reference or are about to write it to disk, and its places on the queues.
`EntryOk` says which numbers go with which state of the entry, and `Inv` adds that no two non-empty
entries have the same block. A step changes one entry and the numbers of that entry (`Inv.local`).
-/

namespace Chickadee.Bufcache

/-- What is counted for an entry. -/
inductive Kind
  /-- references -/
  | ref
  /-- tasks that are reading the entry from disk -/
  | read
  /-- references to the loaded entry -/
  | hold
  /-- tasks that may modify the buffer -/
  | write
  /-- write references -/
  | wref
  /-- places on dirty lists, and tasks that are about to write the entry to disk -/
  | dirty
  /-- places on the eviction queue -/
  | evict
  /-- places on the prefetch queue -/
  | pf

/-- What a task contributes to the numbers of entry `j`. -/
def Pc.count (pc : Pc) (j : Fin ne) : Kind → ℕ
  | .ref => match pc with
    | .reading _ i | .readDone _ i | .waitLoading _ i | .held _ i | .pushing _ i | .writing _ i =>
      if j = i then 1 else 0
    | _ => 0
  | .read => match pc with
    | .reading _ i | .readDone _ i => if j = i then 1 else 0
    | _ => 0
  | .hold => match pc with
    | .held _ i | .pushing _ i | .writing _ i => if j = i then 1 else 0
    | _ => 0
  | .write => match pc with
    | .writing _ i => if j = i then 1 else 0
    | _ => 0
  | .wref => match pc with
    | .pushing _ i | .writing _ i | .syncWrite _ _ _ i | .syncMark _ _ _ i | .syncPut _ _ _ i =>
      if j = i then 1 else 0
    | _ => 0
  | .dirty => pc.localCount j + match pc with
    | .syncGet _ _ _ i | .syncWrite _ _ _ i | .syncMark _ _ _ i => if j = i then 1 else 0
    | _ => 0
  | .evict => 0
  | .pf => 0

/-- What the queues contribute. -/
def Cache.queued {α : Type*} (c : Cache α) (j : Fin ne) : Kind → ℕ
  | .dirty => c.dirty_list_.count j
  | .evict => c.evictq_.count j
  | .pf => c.pfq_.count j
  | _ => 0

/-- What the tasks contribute. -/
def tcount (T : Multiset Pc) (j : Fin ne) (k : Kind) : ℕ := (T.map fun pc => pc.count j k).sum

/-- The numbers of entry `j`. -/
def counts {α : Type*} (c : Cache α) (T : Multiset Pc) (j : Fin ne) (k : Kind) : ℕ :=
  tcount T j k + c.queued j k

@[simp] theorem tcount_zero (j : Fin ne) (k : Kind) : tcount 0 j k = 0 := rfl

@[simp] theorem tcount_cons (pc : Pc) (T : Multiset Pc) (j : Fin ne) (k : Kind) :
    tcount (pc ::ₘ T) j k = pc.count j k + tcount T j k := by
  simp [tcount]

@[simp] theorem tcount_evict (T : Multiset Pc) (j : Fin ne) : tcount T j .evict = 0 :=
  Multiset.sum_map_zero

@[simp] theorem tcount_pf (T : Multiset Pc) (j : Fin ne) : tcount T j .pf = 0 :=
  Multiset.sum_map_zero

/-- Who reads or holds an entry references it, and who may modify it holds it and its write
reference. -/
theorem tcount_le (T : Multiset Pc) (j : Fin ne) :
    tcount T j .read + tcount T j .hold ≤ tcount T j .ref ∧
      tcount T j .write ≤ tcount T j .hold ∧ tcount T j .write ≤ tcount T j .wref := by
  induction T using Multiset.induction with
  | empty => exact ⟨le_refl _, le_refl _, le_refl _⟩
  | cons pc T ih =>
    have hpc : pc.count j .read + pc.count j .hold ≤ pc.count j .ref ∧
        pc.count j .write ≤ pc.count j .hold ∧ pc.count j .write ≤ pc.count j .wref := by
      cases pc <;> simp [Pc.count]
    simp only [tcount_cons]
    omega

theorem counts_le {α : Type*} (c : Cache α) (T : Multiset Pc) (j : Fin ne) :
    counts c T j .read + counts c T j .hold ≤ counts c T j .ref ∧
      counts c T j .write ≤ counts c T j .hold ∧ counts c T j .write ≤ counts c T j .wref :=
  tcount_le T j

/-- Which numbers go with which state. -/
def StateOk (n : Kind → ℕ) : Estate → Prop
  | .es_empty => n .ref = 0 ∧ n .evict = 0 ∧ n .dirty = 0 ∧ n .pf = 0
  | .es_allocated => False
  | .es_loading => n .read = 1 ∧ n .hold = 0 ∧ n .evict = 0 ∧ n .dirty = 0 ∧ n .pf = 0
  | .es_clean => n .read = 0 ∧ n .write = 0 ∧ n .dirty = 0 ∧ n .pf = 0 ∧ n .evict ≤ 1 ∧
      (n .evict = 1 → n .ref = 0)
  | .es_dirty => n .read = 0 ∧ n .evict = 0 ∧ n .dirty = 1 ∧ n .pf = 0
  | .es_prefetching => n .ref = 0 ∧ n .evict = 0 ∧ n .dirty = 0 ∧ n .pf ≤ 1

/-- The fields of an entry agree with its numbers. -/
structure EntryOk {α : Type*} (b : Bcentry α) (n : Kind → ℕ) : Prop where
  ref : b.ref_ = n .ref
  wref : b.wref_ = n .wref
  wref_le : n .wref ≤ 1
  state : StateOk n b.estate_

/-- **The invariant**, of the cache and the tasks. -/
structure Inv {α : Type*} (c : Cache α) (T : Multiset Pc) : Prop where
  entry : ∀ i, EntryOk (c.e_ i) (counts c T i)
  unique : ∀ i j, (c.e_ i).estate_ ≠ .es_empty → (c.e_ j).estate_ ≠ .es_empty →
    (c.e_ i).bn_ = (c.e_ j).bn_ → i = j

variable {α : Type*} {c c' : Cache α} {T T' : Multiset Pc} {i j : Fin ne} {bn : ℕ} {pc : Pc}

/-! ## How to keep it -/

/-- **A step that changes entry `i` and the numbers of entry `i` only.** -/
theorem Inv.local (h : Inv c T) (i : Fin ne) (hother : ∀ j, j ≠ i → c'.e_ j = c.e_ j)
    (hcount : ∀ j, j ≠ i → ∀ k, counts c' T' j k = counts c T j k)
    (hi : EntryOk (c'.e_ i) (counts c' T' i))
    (hbn : (c'.e_ i).estate_ ≠ .es_empty →
      ((c.e_ i).estate_ ≠ .es_empty ∧ (c'.e_ i).bn_ = (c.e_ i).bn_) ∨
        ∀ j, j ≠ i → (c.e_ j).estate_ ≠ .es_empty → (c.e_ j).bn_ ≠ (c'.e_ i).bn_) :
    Inv c' T' := by
  have hnew : ∀ j, j ≠ i → (c'.e_ i).estate_ ≠ .es_empty → (c.e_ j).estate_ ≠ .es_empty →
      (c.e_ j).bn_ ≠ (c'.e_ i).bn_ := by
    intro j hj hne hnej he
    rcases hbn hne with ⟨hold, hsame⟩ | hfresh
    · exact hj (h.unique j i hnej hold (he.trans hsame))
    · exact hfresh j hj hnej he
  constructor
  · intro j
    by_cases hj : j = i
    · rw [hj]
      exact hi
    · rw [hother j hj, show counts c' T' j = counts c T j from funext (hcount j hj)]
      exact h.entry j
  · intro j l hjne hlne hbne
    by_cases hj : j = i
    · by_cases hl : l = i
      · rw [hj, hl]
      · subst hj
        rw [hother l hl] at hlne hbne
        exact absurd hbne.symm (hnew l hl hjne hlne)
    · by_cases hl : l = i
      · subst hl
        rw [hother j hj] at hjne hbne
        exact absurd hbne (hnew j hj hlne hjne)
      · rw [hother j hj] at hjne hbne
        rw [hother l hl] at hlne hbne
        exact h.unique j l hjne hlne hbne

/-- The invariant does not see contents and the progress of prefetches. -/
theorem Inv.congr (h : Inv c T) (he : ∀ j, (c'.e_ j).estate_ = (c.e_ j).estate_ ∧
    (c'.e_ j).bn_ = (c.e_ j).bn_ ∧ (c'.e_ j).ref_ = (c.e_ j).ref_ ∧
    (c'.e_ j).wref_ = (c.e_ j).wref_) (hcount : ∀ j k, counts c' T' j k = counts c T j k) :
    Inv c' T' := by
  constructor
  · intro j
    obtain ⟨hst, -, href, hwref⟩ := he j
    obtain ⟨h₁, h₂, h₃, h₄⟩ := h.entry j
    rw [show counts c' T' j = counts c T j from funext (hcount j)]
    exact ⟨href.trans h₁, hwref.trans h₂, h₃, by rw [hst]; exact h₄⟩
  · intro j l hj hl hb
    rw [(he j).1] at hj
    rw [(he l).1] at hl
    rw [(he j).2.1, (he l).2.1] at hb
    exact h.unique j l hj hl hb

/-- A task that counts nowhere. -/
def Pc.Idle (pc : Pc) : Prop := ∀ j k, pc.count j k = 0

theorem counts_idle (hpc : pc.Idle) (j : Fin ne) (k : Kind) :
    counts c (pc ::ₘ T) j k = counts c T j k := by
  rw [counts, tcount_cons, hpc j k, Nat.zero_add, counts]

theorem Inv.idle_iff (hpc : pc.Idle) : Inv c (pc ::ₘ T) ↔ Inv c T := by
  constructor
  · exact fun h => h.congr (fun _ => ⟨rfl, rfl, rfl, rfl⟩) fun j k => (counts_idle hpc j k).symm
  · exact fun h => h.congr (fun _ => ⟨rfl, rfl, rfl, rfl⟩) fun j k => counts_idle hpc j k

theorem idle_get : (Pc.get bn).Idle := fun _ k => by cases k <;> rfl

theorem idle_getWait : (Pc.getWait bn i).Idle := fun _ k => by cases k <;> rfl

theorem idle_syncStart (drop : ℤ) (cont : Option ℕ) : (Pc.syncStart drop cont).Idle :=
  fun _ k => by cases k <;> rfl

theorem idle_syncDone (drop : ℤ) (cont : Option ℕ) : (Pc.syncLoop drop cont []).Idle :=
  fun _ k => by cases k <;> rfl

theorem idle_syncDrop (drop : ℤ) (cont : Option ℕ) (rest : List (Fin ne)) :
    (Pc.syncDrop drop cont i rest).Idle := fun _ k => by cases k <;> rfl

/-! ## What the numbers say -/

/-- An entry that is held is clean or dirty. -/
theorem Inv.held_state (h : Inv c T) (hh : 0 < counts c T i .hold) :
    (c.e_ i).estate_ = .es_clean ∨ (c.e_ i).estate_ = .es_dirty := by
  have hle := counts_le c T i
  have hs := (h.entry i).state
  generalize (c.e_ i).estate_ = st at hs
  cases st with
  | es_clean => exact Or.inl rfl
  | es_dirty => exact Or.inr rfl
  | es_allocated => exact hs.elim
  | es_loading => exact absurd hs.2.1 (by omega)
  | es_empty => exact absurd hs.1 (by omega)
  | es_prefetching => exact absurd hs.1 (by omega)

/-- An entry that somebody may modify is dirty. -/
theorem Inv.write_state (h : Inv c T) (hh : 0 < counts c T i .write) :
    (c.e_ i).estate_ = .es_dirty := by
  have hle := counts_le c T i
  rcases h.held_state (i := i) (by omega) with hst | hst
  · have hs := (h.entry i).state
    rw [hst] at hs
    exact absurd hs.2.1 (by omega)
  · exact hst

/-- An entry that somebody reads is loading. -/
theorem Inv.read_state (h : Inv c T) (hh : 0 < counts c T i .read) :
    (c.e_ i).estate_ = .es_loading := by
  have hle := counts_le c T i
  have hs := (h.entry i).state
  generalize (c.e_ i).estate_ = st at hs
  cases st with
  | es_loading => rfl
  | es_allocated => exact hs.elim
  | es_clean => exact absurd hs.1 (by omega)
  | es_dirty => exact absurd hs.1 (by omega)
  | es_empty => exact absurd hs.1 (by omega)
  | es_prefetching => exact absurd hs.1 (by omega)

/-- An entry on a dirty list is dirty. -/
theorem Inv.dirty_state (h : Inv c T) : (c.e_ i).estate_ = .es_dirty ↔ 0 < counts c T i .dirty := by
  have hs := (h.entry i).state
  generalize (c.e_ i).estate_ = st at hs
  cases st with
  | es_dirty => simp [hs.2.2.1]
  | es_allocated => exact hs.elim
  | es_loading => simp [hs.2.2.2.1]
  | es_clean => simp [hs.2.2.1]
  | es_empty => simp [hs.2.2.1]
  | es_prefetching => simp [hs.2.2.1]

/-- An entry on the prefetch queue is prefetching. -/
theorem Inv.pf_state (h : Inv c T) (hp : 0 < counts c T i .pf) :
    (c.e_ i).estate_ = .es_prefetching := by
  have hs := (h.entry i).state
  generalize (c.e_ i).estate_ = st at hs
  cases st with
  | es_prefetching => rfl
  | es_allocated => exact hs.elim
  | es_loading => exact absurd hs.2.2.2.2 (by omega)
  | es_clean => exact absurd hs.2.2.2.1 (by omega)
  | es_dirty => exact absurd hs.2.2.2 (by omega)
  | es_empty => exact absurd hs.2.2.2 (by omega)

/-- An entry on the eviction queue is clean and unreferenced. -/
theorem Inv.evict_state (h : Inv c T) (he : 0 < counts c T i .evict) :
    (c.e_ i).estate_ = .es_clean ∧ (c.e_ i).ref_ = 0 ∧ counts c T i .evict = 1 := by
  have hs := (h.entry i).state
  have href := (h.entry i).ref
  generalize (c.e_ i).estate_ = st at hs
  cases st with
  | es_clean =>
    have h1 : counts c T i .evict = 1 := by have := hs.2.2.2.2.1; omega
    exact ⟨rfl, href.trans (hs.2.2.2.2.2 h1), h1⟩
  | es_allocated => exact hs.elim
  | es_loading => exact absurd hs.2.2.1 (by omega)
  | es_prefetching => exact absurd hs.2.1 (by omega)
  | es_dirty => exact absurd hs.2.1 (by omega)
  | es_empty => exact absurd hs.2.1 (by omega)

theorem evict_pos_iff : 0 < counts c T i .evict ↔ i ∈ c.evictq_ := by
  rw [counts, tcount_evict, Nat.zero_add]
  exact List.count_pos_iff

theorem pf_pos_iff : 0 < counts c T i .pf ↔ i ∈ c.pfq_ := by
  rw [counts, tcount_pf, Nat.zero_add]
  exact List.count_pos_iff

end Chickadee.Bufcache
