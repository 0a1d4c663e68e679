import Chickadee.Bufcache.Inv

/-!
# Small steps

A step of the machine first clears some entries (`Quiet`) and then does at most one thing more: it
gives a block to an empty entry, takes a reference, and so on (`Small`). Both relations say all that
the code and the invariant say about the state before. Every invariant is proved for them, one case
each.
-/

namespace Chickadee.Bufcache

variable {α : Type*}

/-- No non-empty entry holds `bn`. -/
def Cache.Fresh (c : Cache α) (bn : ℕ) : Prop :=
  ∀ j, (c.e_ j).estate_ ≠ .es_empty → (c.e_ j).bn_ ≠ bn

/-- `get_disk_entry(bn)` may end up at slot `i`: it has found `bn` there, or it has slept. -/
def Cache.Finds (c : Cache α) (bn : ℕ) (i : Fin ne) (pc : Pc) : Prop :=
  pc = .get bn ∧ (c.e_ i).bn_ = bn ∨ pc = .getWait bn i

/-- The loop that drops buffers is done with entry `i`. -/
def Cache.Dropped (c : Cache α) (i : Fin ne) : Prop :=
  (c.e_ i).ref_ = 0 → (c.e_ i).estate_ = .es_empty

/-- Moves of a task that change nothing else. -/
inductive Moves (c : Cache α) : Pc → Option Pc → Prop
  | null (bn : ℕ) : Moves c (.get bn) none
  | nullWait (bn : ℕ) (i : Fin ne) : Moves c (.getWait bn i) none
  | full (bn : ℕ) : Moves c (.get bn) (some (.syncStart 0 (some bn)))
  | wait (bn : ℕ) (i : Fin ne) (hst : (c.e_ i).estate_ = .es_prefetching)
      (hbn : (c.e_ i).bn_ = bn) : Moves c (.get bn) (some (.getWait bn i))
  | pop (drop : ℤ) (cont : Option ℕ) (loc : List (Fin ne)) (e : Fin ne) :
      Moves c (.syncLoop drop cont (e :: loc)) (some (.syncGet drop cont loc e))
  | leave (drop : ℤ) (cont : Option ℕ) (hdrop : ¬ drop > 0) :
      Moves c (.syncLoop drop cont []) (syncReturn cont)
  | drop (drop : ℤ) (cont : Option ℕ) (rest : List (Fin ne))
      (hrest : ∀ j, j ∉ rest → c.Dropped j) :
      Moves c (.syncLoop drop cont []) (dropReturn drop cont rest)
  | dropOn (drop : ℤ) (cont : Option ℕ) (i : Fin ne) (rest rest' : List (Fin ne))
      (hrest : ∀ j, j = i ∨ j ∈ rest → j ∉ rest' → c.Dropped j) :
      Moves c (.syncDrop drop cont i rest) (dropReturn drop cont rest')

/-- The entry after it has been cleared. -/
def Cache.cleared (c : Cache α) (i : Fin ne) : Cache α :=
  { c.set i { c.e_ i with estate_ := .es_empty, buf_ := none } with
    evictq_ := c.evictq_.erase i, pfq_ := c.pfq_.erase i }

/-- The entry after `put`. -/
def Cache.released (c : Cache α) (i : Fin ne) : Cache α :=
  let b := c.e_ i
  { c.set i { b with ref_ := b.ref_ - 1 } with
    evictq_ := c.evictq_ ++ (if b.ref_ - 1 = 0 ∧ b.bn_ ≠ 0 ∧ b.estate_ ≠ .es_dirty then [i] else []) }

/-- The entry after `sync(drop)` has marked it clean. -/
def Cache.marked (c : Cache α) (drop : ℤ) (e : Fin ne) : Cache α :=
  let b := c.e_ e
  { c.set e { b with estate_ := .es_clean } with
    evictq_ := c.evictq_ ++ (if b.ref_ = 0 ∧ b.bn_ ≠ 0 ∧ drop ≤ 0 then [e] else []) }

/-- The act calls `evict`, or drops buffers. -/
def Act.MayClear : Act α → Prop
  | .next (.get _) _ _ => True
  | .next (.syncLoop _ _ _) _ _ => True
  | .next (.syncDrop _ _ _ _) _ _ => True
  | .prefetch _ _ _ => True
  | _ => False

/-- The act clears an entry, or gives an empty entry a block number. -/
inductive Quiet (a : Act α) : Cache α → Cache α → Prop
  | clear (c) (i : Fin ne) (ha : a.MayClear) (href : (c.e_ i).ref_ = 0)
      (hst : (c.e_ i).estate_ ≠ .es_dirty) : Quiet a c (c.cleared i)
  | rename (c) (i : Fin ne) (bn : ℕ) (hst : (c.e_ i).estate_ = .es_empty) :
      Quiet a c (c.set i { c.e_ i with bn_ := bn })

/-- A small step of the act. -/
inductive Small [Inhabited α] : Act α → State α → State α → Prop
  | callGet (c d T l) (bn : ℕ) : Small (.callGet bn) ⟨c, d, T, l⟩ ⟨c, d, .get bn ::ₘ T, l⟩
  | callSync (c d T l) (drop : ℤ) :
      Small (.callSync drop) ⟨c, d, T, l⟩ ⟨c, d, .syncStart drop none ::ₘ T, l⟩
  | move (c d T l ok io) (pc : Pc) (pc' : Option Pc) (h : Moves c pc pc') :
      Small (.next pc ok io) ⟨c, d, pc ::ₘ T, l⟩ ⟨c, d, addTask T pc', l⟩
  | allocate (c d T l ok io) (bn : ℕ) (i : Fin ne) (pc : Pc) (v : α)
      (hpc : pc = .get bn ∨ pc = .getWait bn i) (hst : (c.e_ i).estate_ = .es_empty)
      (hbn : c.Fresh bn) :
      Small (.next pc ok io) ⟨c, d, pc ::ₘ T, l⟩
        ⟨c.set i { c.e_ i with
          estate_ := .es_loading, bn_ := bn, ref_ := (c.e_ i).ref_ + 1, buf_ := some v },
          d, .reading bn i ::ₘ T, l⟩
  | await (c d T l ok io) (bn : ℕ) (i : Fin ne) (pc : Pc) (hpc : c.Finds bn i pc)
      (hst : (c.e_ i).estate_ = .es_loading) :
      Small (.next pc ok io) ⟨c, d, pc ::ₘ T, l⟩
        ⟨c.set i { c.e_ i with ref_ := (c.e_ i).ref_ + 1 }, d, .waitLoading bn i ::ₘ T, l⟩
  | reference (c d T l ok io) (bn : ℕ) (i : Fin ne) (pc : Pc) (hpc : c.Finds bn i pc)
      (hst : (c.e_ i).estate_ = .es_clean ∨ (c.e_ i).estate_ = .es_dirty) :
      Small (.next pc ok io) ⟨c, d, pc ::ₘ T, l⟩
        ⟨{ c.set i { c.e_ i with ref_ := (c.e_ i).ref_ + 1 } with
            evictq_ := c.evictq_.erase i },
          d, .held bn i ::ₘ T, .got bn (c.e_ i).bn_ (c.e_ i).buf_ :: l⟩
  | hit (c d T l ok io) (bn : ℕ) (i : Fin ne) (pc : Pc) (hpc : c.Finds bn i pc)
      (hst : (c.e_ i).estate_ = .es_prefetching) (hq : i ∈ c.pfq_)
      (hagain : (c.e_ i).again = false) :
      Small (.next pc ok io) ⟨c, d, pc ::ₘ T, l⟩
        ⟨{ c.set i { c.e_ i with ref_ := (c.e_ i).ref_ + 1, estate_ := .es_clean } with
            pfq_ := c.pfq_.erase i },
          d, .held bn i ::ₘ T, .got bn (c.e_ i).bn_ (c.e_ i).buf_ :: l⟩
  | read (c d T l ok io) (bn : ℕ) (i : Fin ne) :
      Small (.next (.reading bn i) ok io) ⟨c, d, .reading bn i ::ₘ T, l⟩
        ⟨c.set i { c.e_ i with buf_ := some (ioResult (d (c.e_ i).bn_) io) }, d,
          .readDone bn i ::ₘ T, l⟩
  | loaded (c d T l ok io) (bn : ℕ) (i : Fin ne) :
      Small (.next (.readDone bn i) ok io) ⟨c, d, .readDone bn i ::ₘ T, l⟩
        ⟨c.set i { c.e_ i with estate_ := .es_clean }, d, .held bn i ::ₘ T,
          .got bn (c.e_ i).bn_ (c.e_ i).buf_ :: l⟩
  | wake (c d T l ok io) (bn : ℕ) (i : Fin ne)
      (hst : (c.e_ i).estate_ = .es_clean ∨ (c.e_ i).estate_ = .es_dirty) :
      Small (.next (.waitLoading bn i) ok io) ⟨c, d, .waitLoading bn i ::ₘ T, l⟩
        ⟨c, d, .held bn i ::ₘ T, .got bn (c.e_ i).bn_ (c.e_ i).buf_ :: l⟩
  | put (c d T l) (bn : ℕ) (i : Fin ne) :
      Small (.put bn i) ⟨c, d, .held bn i ::ₘ T, l⟩ ⟨c.released i, d, T, l⟩
  | get_write (c d T l) (bn : ℕ) (i : Fin ne) (hw : (c.e_ i).wref_ = 0) :
      Small (.get_write bn i) ⟨c, d, .held bn i ::ₘ T, l⟩
        ⟨c.set i { c.e_ i with wref_ := 1 }, d, .pushing bn i ::ₘ T, l⟩
  | pushOld (c d T l ok io) (bn : ℕ) (i : Fin ne) (hst : (c.e_ i).estate_ = .es_dirty) :
      Small (.next (.pushing bn i) ok io) ⟨c, d, .pushing bn i ::ₘ T, l⟩
        ⟨c, d, .writing bn i ::ₘ T, l⟩
  | push (c d T l ok io) (bn : ℕ) (i : Fin ne) (hst : (c.e_ i).estate_ = .es_clean) :
      Small (.next (.pushing bn i) ok io) ⟨c, d, .pushing bn i ::ₘ T, l⟩
        ⟨{ c.set i { c.e_ i with estate_ := .es_dirty } with
          dirty_list_ := c.dirty_list_ ++ [i] }, d, .writing bn i ::ₘ T, l⟩
  | modify (c d T l) (bn : ℕ) (i : Fin ne) (v : α) :
      Small (.modify bn i v) ⟨c, d, .writing bn i ::ₘ T, l⟩
        ⟨c.set i { c.e_ i with buf_ := some v }, d, .writing bn i ::ₘ T,
          .wrote (c.e_ i).bn_ v :: l⟩
  | put_write (c d T l) (bn : ℕ) (i : Fin ne) :
      Small (.put_write bn i) ⟨c, d, .writing bn i ::ₘ T, l⟩
        ⟨c.set i { c.e_ i with wref_ := 0 }, d, .held bn i ::ₘ T, l⟩
  | swap (c d T l ok io) (drop : ℤ) (cont : Option ℕ) :
      Small (.next (.syncStart drop cont) ok io) ⟨c, d, .syncStart drop cont ::ₘ T, l⟩
        ⟨{ c with dirty_list_ := [] }, d, .syncLoop drop cont c.dirty_list_ ::ₘ T, l⟩
  | syncGet (c d T l ok io) (drop : ℤ) (cont : Option ℕ) (loc : List (Fin ne)) (e : Fin ne)
      (hw : (c.e_ e).wref_ = 0) :
      Small (.next (.syncGet drop cont loc e) ok io) ⟨c, d, .syncGet drop cont loc e ::ₘ T, l⟩
        ⟨c.set e { c.e_ e with wref_ := 1 }, d, .syncWrite drop cont loc e ::ₘ T, l⟩
  | syncWrite (c d T l ok io) (drop : ℤ) (cont : Option ℕ) (loc : List (Fin ne)) (e : Fin ne)
      (v : α) (hv : (c.e_ e).buf_ = some v) :
      Small (.next (.syncWrite drop cont loc e) ok io)
        ⟨c, d, .syncWrite drop cont loc e ::ₘ T, l⟩
        ⟨c, Function.update d (c.e_ e).bn_ (ioResult v io), .syncMark drop cont loc e ::ₘ T, l⟩
  | syncMark (c d T l ok io) (drop : ℤ) (cont : Option ℕ) (loc : List (Fin ne)) (e : Fin ne) :
      Small (.next (.syncMark drop cont loc e) ok io)
        ⟨c, d, .syncMark drop cont loc e ::ₘ T, l⟩
        ⟨c.marked drop e, d, .syncPut drop cont loc e ::ₘ T, l⟩
  | syncPut (c d T l ok io) (drop : ℤ) (cont : Option ℕ) (loc : List (Fin ne)) (e : Fin ne) :
      Small (.next (.syncPut drop cont loc e) ok io) ⟨c, d, .syncPut drop cont loc e ::ₘ T, l⟩
        ⟨c.set e { c.e_ e with wref_ := 0 }, d, .syncLoop drop cont loc ::ₘ T, l⟩
  | prefetch (c d T l ok) (bn : ℕ) (slot : Bool) (i : Fin ne) (v : α)
      (hst : (c.e_ i).estate_ = .es_empty) (hbn : c.Fresh bn) :
      Small (.prefetch bn ok slot) ⟨c, d, T, l⟩
        ⟨{ c.set i { c.e_ i with
            bn_ := bn, again := true, estate_ := .es_prefetching, buf_ := some v } with
            pfq_ := c.pfq_ ++ (if slot then [i] else []) }, d, T, l⟩
  | complete (c d T l) (i : Fin ne) (io : Option α) (hq : i ∈ c.pfq_) :
      Small (.complete i io) ⟨c, d, T, l⟩
        ⟨c.set i { c.e_ i with buf_ := some (ioResult (d (c.e_ i).bn_) io), again := false },
          d, T, l⟩

/-- Quiet steps, and then at most one small step of the act. -/
inductive Smalls [Inhabited α] (a : Act α) : State α → State α → Prop
  | done (s) : Smalls a s s
  | main {s s'} (h : Small a s s') : Smalls a s s'
  | quiet (c c' d T l) {s'} (h : Quiet a c c') (hrest : Smalls a ⟨c', d, T, l⟩ s') :
      Smalls a ⟨c, d, T, l⟩ s'

end Chickadee.Bufcache
