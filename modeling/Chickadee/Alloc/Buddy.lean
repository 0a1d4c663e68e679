import Chickadee.Alloc.Order

/-!
# The buddy allocator of `k-alloc.cc`

`pgmap` has one `Bapg` for each physical page and `free_blocks` one list for each order. A pointer
into `pgmap` is the page's index, an intrusive list is the list of the indices linked on it.

A function that asserts returns `Except Buddy`: `.error b` means that an assertion failed (the
kernel halts) and `b` is the state at that moment.
-/

namespace Chickadee.Alloc

/-- `struct bapg`. `free` and `returned` only ever hold 0 and 1; `pglink` is the lists' business. -/
structure Bapg where
  free : Bool := false
  returned : Bool := false
  ord : ℕ := 0
  r_ord : ℕ := 0
  r_addr : ℕ := 0
deriving DecidableEq

/-- The two tables of the buddy allocator. -/
structure Buddy where
  pgmap : ℕ → Bapg
  free_blocks : ℕ → List ℕ

/-- Both tables are static objects, hence zero before `init_kalloc`. -/
def Buddy.zero : Buddy := { pgmap := fun _ => {}, free_blocks := fun _ => [] }

/-- The number of free lists. -/
abbrev norders : ℕ := MAX_ORDER - MIN_ORDER + 1

/-- The loop `for (bapg* it = lo; it < lo + n; ++it) { *it = f(*it); }`. -/
def updPages (f : Bapg → Bapg) : ℕ → ℕ → (ℕ → Bapg) → ℕ → Bapg
  | _, 0, pg => pg
  | lo, n + 1, pg => updPages f (lo + 1) n (Function.update pg lo (f (pg lo)))

/-- `pglink.is_linked()`: the page is on some free list. -/
def Buddy.linked (b : Buddy) (p : ℕ) : Bool :=
  (List.range norders).any fun j => p ∈ b.free_blocks j

/-- `free_blocks[j].push_back(&pgmap[p])`, which asserts that the page is not linked. -/
def Buddy.push_back (b : Buddy) (j p : ℕ) : Except Buddy Buddy :=
  if b.linked p then .error b
  else .ok { b with free_blocks := Function.update b.free_blocks j (b.free_blocks j ++ [p]) }

/-! ## `init_kalloc` -/

/-- The memory types of `kernel.hh`. -/
inductive MemType | mem_nonexistent | mem_available | mem_kernel | mem_reserved | mem_console
deriving DecidableEq

/-- One range `[first, last)` of `physical_ranges`. -/
structure MemRange where
  first : ℕ
  last : ℕ
  type : MemType

/-- The inner loop of `init_kalloc`: cut a range into root blocks, the largest first. -/
def carve (curr_addr remaining_size : ℕ) (b : Buddy) : Except Buddy Buddy :=
  if remaining_size = 0 then .ok b
  else
    let ord := largest_fitting_ord remaining_size
    if MIN_ORDER ≤ ord ∧ ord ≤ MAX_ORDER then
      let current_size := 2 ^ ord
      let lo := curr_addr / PAGESIZE
      let b := { b with
        pgmap := updPages
          (fun pg => { pg with free := true, ord := ord, r_ord := ord, r_addr := curr_addr })
          lo ((curr_addr + current_size) / PAGESIZE - lo) b.pgmap }
      match b.push_back (ord - MIN_ORDER) lo with
      | .error b => .error b
      | .ok b => carve (curr_addr + current_size) (remaining_size - current_size) b
    else .error b
termination_by remaining_size
decreasing_by
  have := Nat.two_pow_pos (largest_fitting_ord remaining_size)
  omega

/-- `init_kalloc()`, on the ranges of `physical_ranges`. -/
def init_kalloc : List MemRange → Buddy → Except Buddy Buddy
  | [], b => .ok b
  | range :: rest, b =>
    if range.type = .mem_available then
      match carve range.first (range.last - range.first) b with
      | .error b => .error b
      | .ok b => init_kalloc rest b
    else init_kalloc rest b

/-! ## `kalloc` -/

/-- The loop that looks for the next larger order with a free block. -/
def Buddy.next_order (b : Buddy) (nb_ord : ℕ) : Option ℕ :=
  if nb_ord < MAX_ORDER then
    if b.free_blocks (nb_ord + 1 - MIN_ORDER) = [] then b.next_order (nb_ord + 1)
    else some (nb_ord + 1)
  else none
termination_by MAX_ORDER - nb_ord

/--
The loop `while (nb_ord > ord)` that halves the block at `new_blk`. The right half gets the smaller
order and goes on a free list; the pages of the left half keep the stale order for now.
-/
def chop (new_blk ord : ℕ) : ℕ → Buddy → Except Buddy Buddy
  | 0, b => .ok b
  | n + 1, b =>
    if n + 1 > ord then
      let half := 2 ^ (n + 1 - MIN_ORDER - 1)
      let split_page := new_blk + half
      let b := { b with
        pgmap := updPages (fun it => { it with ord := n + 1 - 1 }) split_page half b.pgmap }
      match b.push_back (n + 1 - MIN_ORDER - 1) split_page with
      | .error b => .error b
      | .ok b => chop new_blk ord n b
    else .ok b

/-- `free_blocks[j].pop_front()`. -/
def Buddy.pop_front (b : Buddy) (j : ℕ) : Buddy × Option ℕ :=
  ({ b with free_blocks := Function.update b.free_blocks j (b.free_blocks j).tail },
    (b.free_blocks j).head?)

/-- The middle of `kalloc`: find or make a free block of order `ord`. -/
def Buddy.take (b : Buddy) (ord : ℕ) : Except Buddy (Buddy × Option ℕ) :=
  if b.free_blocks (ord - MIN_ORDER) = [] then
    match b.next_order ord with
    | none => .ok (b, none)
    | some nb_ord =>
      match b.pop_front (nb_ord - MIN_ORDER) with
      | (b, none) => .ok (b, none)
      | (b, some new_blk) =>
        match chop new_blk ord nb_ord b with
        | .error b => .error b
        | .ok b =>
          .ok ({ b with
            pgmap := updPages (fun it => { it with ord := ord }) new_blk (2 ^ (ord - MIN_ORDER))
              b.pgmap }, some new_blk)
  else .ok (b.pop_front (ord - MIN_ORDER))

/-- The buddy part of `kalloc`: the page index of the new block, or `none` for `nullptr`. -/
def Buddy.kalloc (b : Buddy) (sz : ℕ) : Except Buddy (Buddy × Option ℕ) :=
  let ord := order sz
  let ord := if ord ≥ MIN_ORDER then ord else MIN_ORDER
  match b.take ord with
  | .error b => .error b
  | .ok (b, none) => .ok (b, none)
  | .ok (b, some blk) =>
    let pgmap := Function.update b.pgmap blk { b.pgmap blk with returned := true }
    .ok ({ b with
      pgmap := updPages (fun it => { it with free := false, ord := ord }) blk
        (2 ^ (ord - MIN_ORDER)) pgmap }, some blk)

/-! ## `kfree` -/

/-- `buddy_to_the_left(blk)`. -/
def Buddy.buddy_to_the_left (b : Buddy) (blk : ℕ) : Bool :=
  let addr := blk * PAGESIZE
  let tnorm_addr := addr - (b.pgmap blk).r_addr
  tnorm_addr &&& (1 <<< (b.pgmap blk).ord) != 0

/-- The loop that increments `ord` on the pages of a block and of its buddy in step. -/
def joinPages : ℕ → ℕ → ℕ → (ℕ → Bapg) → ℕ → Bapg
  | _, _, 0, pg => pg
  | it, it2, n + 1, pg =>
    let pg := Function.update pg it { pg it with ord := (pg it).ord + 1 }
    let pg := Function.update pg it2 { pg it2 with ord := (pg it2).ord + 1 }
    joinPages (it + 1) (it2 + 1) n pg

/--
The loop `while (true)` of `kfree` that joins the block with its free buddies. The argument counts
the iterations left; `coalesce_ok` shows that the orders run out first.
-/
def coalesce : ℕ → ℕ → ℕ → Buddy → Except Buddy Buddy
  | 0, _, _, b => .error b
  | n + 1, blk, addr, b =>
    let ord := (b.pgmap blk).ord
    if ord = (b.pgmap blk).r_ord then b.push_back (ord - MIN_ORDER) blk
    else
      let buddy_addr := if b.buddy_to_the_left blk then addr - 2 ^ ord else addr + 2 ^ ord
      let buddy_blk := buddy_addr / PAGESIZE
      if (b.pgmap buddy_blk).free ∧ (b.pgmap buddy_blk).ord = ord then
        let b := { b with
          free_blocks := Function.update b.free_blocks (ord - MIN_ORDER)
            ((b.free_blocks (ord - MIN_ORDER)).erase buddy_blk)
          pgmap := joinPages blk buddy_blk (2 ^ ord / PAGESIZE) b.pgmap }
        if buddy_addr < addr then coalesce n buddy_blk buddy_addr b
        else coalesce n blk addr b
      else b.push_back (ord - MIN_ORDER) blk

/-- The buddy part of `kfree`, on the physical address of the pointer. -/
def Buddy.kfree (b : Buddy) (addr : ℕ) : Except Buddy Buddy :=
  if addr &&& 0xfff ≠ 0 then .error b
  else
    let blk := addr / PAGESIZE
    if (b.pgmap blk).free then .error b
    else if ¬ (b.pgmap blk).returned then .error b
    else
      let pgmap := Function.update b.pgmap blk { b.pgmap blk with returned := false }
      let b := { b with
        pgmap := updPages (fun it => { it with free := true }) blk
          (2 ^ (b.pgmap blk).ord / PAGESIZE) pgmap }
      coalesce norders blk addr b

/-! ## What the loops over pages compute -/

theorem updPages_apply (f : Bapg → Bapg) (i : ℕ) : ∀ (n lo : ℕ) (pg : ℕ → Bapg),
    updPages f lo n pg i = if lo ≤ i ∧ i < lo + n then f (pg i) else pg i
  | 0, lo, pg => by rw [updPages, if_neg (by omega)]
  | n + 1, lo, pg => by
    rw [updPages, updPages_apply f i n (lo + 1)]
    by_cases hi : i = lo
    · subst hi
      rw [if_neg (by omega), if_pos (by omega), Function.update_self]
    · rw [Function.update_of_ne hi]
      by_cases hm : lo ≤ i ∧ i < lo + (n + 1)
      · rw [if_pos hm, if_pos (by omega)]
      · rw [if_neg hm, if_neg (by omega)]

/-- On two disjoint blocks the joining loop adds one to the order of every page of both. -/
theorem joinPages_apply (i : ℕ) : ∀ (n it it2 : ℕ) (pg : ℕ → Bapg),
    it + n ≤ it2 ∨ it2 + n ≤ it →
    joinPages it it2 n pg i =
      if (it ≤ i ∧ i < it + n) ∨ (it2 ≤ i ∧ i < it2 + n) then { pg i with ord := (pg i).ord + 1 }
      else pg i
  | 0, it, it2, pg, _ => by rw [joinPages, if_neg (by omega)]
  | n + 1, it, it2, pg, h => by
    have hne : it ≠ it2 := by omega
    rw [joinPages, joinPages_apply i n (it + 1) (it2 + 1) _ (by omega)]
    by_cases hi : i = it
    · subst hi
      rw [if_neg (by omega), if_pos (by omega), Function.update_of_ne hne, Function.update_self]
    · by_cases hi2 : i = it2
      · subst hi2
        rw [if_neg (by omega), if_pos (by omega), Function.update_self, Function.update_of_ne hi]
      · rw [Function.update_of_ne hi2, Function.update_of_ne hi]
        by_cases hm : (it ≤ i ∧ i < it + (n + 1)) ∨ (it2 ≤ i ∧ i < it2 + (n + 1))
        · rw [if_pos hm, if_pos (by omega)]
        · rw [if_neg hm, if_neg (by omega)]

theorem linked_eq_false {b : Buddy} {p : ℕ} (h : ∀ j, p ∉ b.free_blocks j) :
    b.linked p = false := by
  simp [Buddy.linked, h]

theorem push_back_ok {b : Buddy} {j p : ℕ} (h : ∀ j, p ∉ b.free_blocks j) :
    b.push_back j p =
      .ok { b with free_blocks := Function.update b.free_blocks j (b.free_blocks j ++ [p]) } := by
  rw [Buddy.push_back, linked_eq_false h]
  simp

/-- `next_order` finds a larger order with a free block, if there is one. -/
theorem next_order_some {b : Buddy} : ∀ {o n : ℕ}, b.next_order o = some n →
    o < n ∧ n ≤ MAX_ORDER ∧ b.free_blocks (n - MIN_ORDER) ≠ [] := by
  intro o
  induction hd : MAX_ORDER - o generalizing o with
  | zero => intro n h; rw [Buddy.next_order, if_neg (by omega)] at h; cases h
  | succ d ih =>
    intro n h
    rw [Buddy.next_order, if_pos (by omega)] at h
    split at h
    · obtain ⟨h1, h2⟩ := ih (by omega) h
      exact ⟨by omega, h2⟩
    · next hne =>
      cases h
      exact ⟨by omega, by omega, hne⟩

end Chickadee.Alloc
