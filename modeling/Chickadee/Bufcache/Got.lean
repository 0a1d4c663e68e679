import Chickadee.Bufcache.Atomic

/-!
# What `get_disk_entry` returns

After it has slept on a prefetch, `get_disk_entry` goes on with the same slot. In the meantime the slot can have
been given to another block, and this is not looked at. In every run without that, an entry that is returned is
one for the block that was asked for.
-/

namespace Chickadee.Bufcache

open Chickadee.Lib

variable {α : Type*} {c c' : Cache α} {d disk : ℕ → α} {T T' : Multiset Pc} {l : List (Event α)} {i j : Fin ne}
  {bn : ℕ} {pc : Pc} {a : Act α} {s s' : State α}

/-- The block that a task asked for and the entry that it references for it. -/
def Pc.refs : Pc → Option (ℕ × Fin ne)
  | .reading bn i => some (bn, i)
  | .readDone bn i => some (bn, i)
  | .waitLoading bn i => some (bn, i)
  | .held bn i => some (bn, i)
  | .pushing bn i => some (bn, i)
  | .writing bn i => some (bn, i)
  | _ => none

/-- The slot that a sleeping `get_disk_entry` comes back to has not been given to another block. -/
def SlotKept (s : State α) : Act α → Prop
  | .next (.getWait bn i) _ _ => (s.c.e_ i).estate_ ≠ .es_empty → (s.c.e_ i).bn_ = bn
  | _ => True

/-- The conditions on a step under which `get_disk_entry` returns what it is asked for. -/
def FitsGet (s : State α) (a : Act α) : Prop := FitsContent s a ∧ SlotKept s a

instance (s : State α) : (a : Act α) → Decidable (SlotKept s a)
  | .next (.getWait bn i) _ _ => inferInstanceAs (Decidable ((s.c.e_ i).estate_ ≠ .es_empty → (s.c.e_ i).bn_ = bn))
  | .next (.get _) _ _ | .next (.reading _ _) _ _ | .next (.readDone _ _) _ _ | .next (.waitLoading _ _) _ _
  | .next (.held _ _) _ _ | .next (.pushing _ _) _ _ | .next (.writing _ _) _ _ | .next (.syncStart _ _) _ _
  | .next (.syncLoop _ _ _) _ _ | .next (.syncGet _ _ _ _) _ _ | .next (.syncWrite _ _ _ _) _ _
  | .next (.syncMark _ _ _ _) _ _ | .next (.syncPut _ _ _ _) _ _ | .next (.syncDrop _ _ _ _) _ _
  | .callGet _ | .callSync _ | .get_write _ _ | .modify _ _ _ | .put_write _ _ | .put _ _ | .prefetch _ _ _
  | .complete _ _ => .isTrue trivial

instance (s : State α) (a : Act α) : Decidable (FitsGet s a) := inferInstanceAs (Decidable (_ ∧ _))

/-- **What is promised of an entry that `get_disk_entry(bn)` has returned.** -/
structure Got (d : ℕ → α) (s : State α) (bn : ℕ) (i : Fin ne) : Prop where
  block : (s.c.e_ i).bn_ = bn
  state : (s.c.e_ i).estate_ = .es_clean ∨ (s.c.e_ i).estate_ = .es_dirty
  buf : (s.c.e_ i).buf_ = some (replay d s.log bn)
  ref : (s.c.e_ i).ref_ = tcount s.tasks i .ref
  counted : 0 < (s.c.e_ i).ref_

/-! ## The block of a referenced entry -/

/-- Who references an entry has asked for its block. -/
def Blocks (c : Cache α) (T : Multiset Pc) : Prop :=
  ∀ pc ∈ T, ∀ bn i, pc.refs = some (bn, i) → (c.e_ i).bn_ = bn

theorem count_of_refs (h : pc.refs = some (bn, i)) : 0 < pc.count i .ref := by
  cases pc with
  | reading | readDone | waitLoading | held | pushing | writing =>
    cases h
    simp [Pc.count]
  | _ => cases h

/-- An entry that is referenced is not empty. -/
theorem Inv.ne_empty (h : Inv c T) (hmem : pc ∈ T) (hrefs : pc.refs = some (bn, i)) :
    (c.e_ i).estate_ ≠ .es_empty := by
  intro hempty
  have hstate := (h.entry i).state
  rw [hempty] at hstate
  have hpos := Nat.add_pos_left (tcount_pos hmem (count_of_refs hrefs)) (c.queued i .ref)
  exact hpos.ne' hstate.1

/-- A step that renames empty entries only, with no new reference. -/
theorem Blocks.keep (h : Blocks c T) (hinv : Inv c T) (hsub : ∀ q ∈ T', q.refs ≠ none → q ∈ T)
    (hkeep : ∀ j, (c.e_ j).estate_ ≠ .es_empty → (c'.e_ j).bn_ = (c.e_ j).bn_) : Blocks c' T' := by
  intro q hq bn i hrefs
  have hmem := hsub q hq (by rw [hrefs]; exact Option.some_ne_none _)
  exact (hkeep i (hinv.ne_empty hmem hrefs)).trans (h q hmem bn i hrefs)

/-- A task that references its entry. -/
theorem Blocks.add (h : Blocks c T) (hblock : ∀ bn i, pc.refs = some (bn, i) → (c.e_ i).bn_ = bn) :
    Blocks c (pc ::ₘ T) := by
  intro q hq
  rcases Multiset.mem_cons.mp hq with rfl | hq
  · exact hblock
  · exact h q hq

/-- A task goes on, with the entry that it references, or with one for its block. -/
theorem Blocks.go (h : Blocks c (pc ::ₘ T)) (hinv : Inv c (pc ::ₘ T)) {pc' : Pc}
    (hblock : ∀ bn i, pc'.refs = some (bn, i) → (c'.e_ i).bn_ = bn)
    (hkeep : ∀ j, (c.e_ j).estate_ ≠ .es_empty → (c'.e_ j).bn_ = (c.e_ j).bn_) : Blocks c' (pc' ::ₘ T) :=
  (h.keep hinv (fun _ hq _ => Multiset.mem_cons_of_mem hq) hkeep).add hblock

theorem Blocks.same (h : Blocks c (pc ::ₘ T)) (hinv : Inv c (pc ::ₘ T)) {pc' : Pc} (hrefs : pc'.refs = pc.refs)
    (hkeep : ∀ j, (c'.e_ j).bn_ = (c.e_ j).bn_) : Blocks c' (pc' ::ₘ T) := by
  refine h.go hinv (fun bn i hpc => ?_) fun j _ => hkeep j
  rw [hkeep]
  exact h pc (Multiset.mem_cons_self _ _) bn i (hrefs ▸ hpc)

theorem refs_syncReturn (cont : Option ℕ) {q : Pc} (h : syncReturn cont = some q) : q.refs = none := by
  cases cont with
  | none => cases h
  | some bn =>
    cases h
    rfl

theorem refs_dropReturn (drop : ℤ) (cont : Option ℕ) (rest : List (Fin ne)) {q : Pc}
    (h : dropReturn drop cont rest = some q) : q.refs = none := by
  cases rest with
  | nil => exact refs_syncReturn cont h
  | cons i rest =>
    cases h
    rfl

/-- Where a task goes without doing anything else, it references nothing. -/
theorem Moves.refs {pc' : Option Pc} (h : Moves c pc pc') {q : Pc} (hq : pc' = some q) : q.refs = none := by
  cases h with
  | null | nullWait => cases hq
  | full | wait | pop =>
    cases hq
    rfl
  | leave drop cont => exact refs_syncReturn cont hq
  | drop drop cont rest => exact refs_dropReturn drop cont rest hq
  | dropOn drop cont i rest rest' => exact refs_dropReturn drop cont rest' hq

theorem Blocks.move {pc' : Option Pc} (h : Blocks c (pc ::ₘ T)) (hm : Moves c pc pc') : Blocks c (addTask T pc') := by
  have hT : Blocks c T := fun q hq => h q (Multiset.mem_cons_of_mem hq)
  cases pc' with
  | none => exact hT
  | some q => exact hT.add fun bn i hrefs => absurd ((hm.refs rfl).symm.trans hrefs) (by simp)

/-! ## One step -/

/-- The slot that `get_disk_entry` ends up at has its block. -/
theorem SlotKept.finds {ok : Bool} {io : Option α} (h : SlotKept ⟨c, disk, pc ::ₘ T, l⟩ (.next pc ok io))
    (hf : c.Finds bn i pc) (hst : (c.e_ i).estate_ ≠ .es_empty) : (c.e_ i).bn_ = bn := by
  rcases hf with ⟨-, hbn⟩ | rfl
  · exact hbn
  · exact h hst

theorem Small.blocks [Inhabited α] (hs : Small a s s') (hinv : Inv s.c s.tasks) (hslot : SlotKept s a)
    (h : Blocks s.c s.tasks) : Blocks s'.c s'.tasks := by
  cases hs with
  | callGet | callSync => exact h.add fun bn i hrefs => by cases hrefs
  | move _ _ _ _ _ _ _ _ hm => exact h.move hm
  | allocate c _ T _ _ _ bn i pc v hpc hst =>
    refine h.go hinv (fun bn' i' hrefs => ?_) (Cache.bn_set_empty hst)
    cases hrefs
    rw [Cache.set_e_self]
  | await c _ T _ _ _ bn i pc hpc hst =>
    refine h.go hinv (fun bn' i' hrefs => ?_) fun j _ => Cache.bn_set (by rfl) j
    cases hrefs
    rw [Cache.set_e_self]
    exact hslot.finds hpc (by rw [hst]; simp)
  | reference c _ T _ _ _ bn i pc hpc hst =>
    refine h.go hinv (fun bn' i' hrefs => ?_) fun j _ => Cache.bn_set (by rfl) j
    cases hrefs
    have hne : (c.e_ i).estate_ ≠ .es_empty := by rcases hst with hst | hst <;> simp [hst]
    exact (Cache.bn_set (by rfl) i).trans (hslot.finds hpc hne)
  | hit c _ T _ _ _ bn i pc hpc hst =>
    refine h.go hinv (fun bn' i' hrefs => ?_) fun j _ => Cache.bn_set (by rfl) j
    cases hrefs
    exact (Cache.bn_set (by rfl) i).trans (hslot.finds hpc (by rw [hst]; simp))
  | read | loaded | get_write | push | modify | put_write => exact h.same hinv rfl (Cache.bn_set (by rfl))
  | wake | pushOld => exact h.same hinv rfl fun _ => rfl
  | put c _ T _ bn i =>
    refine h.keep hinv (fun _ hq _ => Multiset.mem_cons_of_mem hq) fun j _ => ?_
    exact Cache.bn_set (b := { c.e_ i with ref_ := (c.e_ i).ref_ - 1 }) rfl j
  | swap => exact h.same hinv rfl fun _ => rfl
  | syncGet | syncMark | syncPut => exact h.same hinv rfl (Cache.bn_set (by rfl))
  | syncWrite => exact h.same hinv rfl fun _ => rfl
  | prefetch c _ T _ _ bn _ i v hst => exact h.keep hinv (fun _ hq _ => hq) (Cache.bn_set_empty hst)
  | complete => exact h.keep hinv (fun _ hq _ => hq) fun j _ => Cache.bn_set (by rfl) j

theorem Quiet.blocks (hq : Quiet a c c') (hinv : Inv c T) (h : Blocks c T) : Blocks c' T := by
  cases hq with
  | clear i => exact h.keep hinv (fun _ hq _ => hq) fun j _ => Cache.bn_set (by rfl) j
  | rename i bn hst => exact h.keep hinv (fun _ hq _ => hq) (Cache.bn_set_empty hst)

theorem Quiet.slotKept (hq : Quiet a c c') (h : SlotKept ⟨c, disk, T, l⟩ a) : SlotKept ⟨c', disk, T, l⟩ a := by
  cases a with
  | next pc ok io =>
    cases pc with
    | getWait bn i =>
      cases hq with
      | clear j ha => exact ha.elim
      | rename j bn' hst =>
        intro hne
        by_cases hij : i = j
        · subst hij
          simp [hst] at hne
        · show ((c.set j _).e_ i).bn_ = bn
          rw [Cache.set_e_ne hij] at hne ⊢
          exact h hne
    | _ => trivial
  | _ => trivial

/-! ## In every run -/

theorem reachable_blocks [Inhabited α] (h : Reachable d FitsGet s) :
    (Inv s.c s.tasks ∧ Content (replay d s.log) s.c s.disk s.tasks) ∧ Blocks s.c s.tasks := by
  refine ⟨reachable_content (h.mono fun _ _ hok => hok.1), ?_⟩
  refine (Reach.invariant (P := fun s => Inv s.c s.tasks ∧ Blocks s.c s.tasks) ?_ ?_ h).2
  · rintro s rfl
    exact ⟨inv_init d, fun q hq => absurd hq (Multiset.notMem_zero q)⟩
  · rintro s a s' ⟨hinv, hblocks⟩ ⟨⟨hfits, -⟩, hslot⟩ hstep
    refine ⟨step_inv hinv hfits hstep, ?_⟩
    refine (step_small hinv hfits hstep).keep (P := fun s => Blocks s.c s.tasks ∧ SlotKept s a)
      (Q := fun s => Blocks s.c s.tasks) ?_ ?_ (fun _ hP => hP.1) hinv ⟨hblocks, hslot⟩
    · exact fun c c' disk T l hinv hq hP => ⟨hq.blocks hinv hP.1, hq.slotKept hP.2⟩
    · exact fun s s' hinv hsm hP => hsm.blocks hinv hP.2 hP.1

/-- **What `get_disk_entry` returns** is right in every run in which no slot is given away to which it comes back. -/
theorem reachable_got [Inhabited α] (h : Reachable d FitsGet s) (bn : ℕ) (i : Fin ne)
    (hheld : .held bn i ∈ s.tasks) : Got d s bn i := by
  obtain ⟨⟨hinv, hcon⟩, hblocks⟩ := reachable_blocks h
  have hbn : (s.c.e_ i).bn_ = bn := hblocks _ hheld bn i rfl
  have href : (s.c.e_ i).ref_ = tcount s.tasks i .ref := (hinv.entry i).ref
  have hhold : 0 < tcount s.tasks i .hold := tcount_pos hheld (by simp [Pc.count])
  have hstate := hinv.held_state (Nat.add_pos_left hhold _)
  have hbuf : (s.c.e_ i).buf_ = some (replay d s.log bn) := by
    rw [← hbn]
    exact hstate.elim (hcon.clean i) (hcon.dirty i)
  exact ⟨hbn, hstate, hbuf, href, href ▸ tcount_pos hheld (by simp [Pc.count])⟩

end Chickadee.Bufcache
