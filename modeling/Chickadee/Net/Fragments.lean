import Mathlib.Data.Nat.Bitwise
import Chickadee.Lib.Pieces
import Chickadee.Net.Ip

/-!
# What is sent reassembles

With an MTU of 1500 a packet takes 1480 bytes of the payload, so that offsets are counted in units of 8
bytes without a remainder. The length and the offset of a packet are read back from its header as `ip_rx`
reads them.
-/

namespace Chickadee.Net

open Lib

/-- The piece of a payload that a frame carries, by the header of its packet. -/
def Frame.piece (f : Frame) : Piece UInt8 :=
  let offset := byteswap16 (getLE f.bytes (HDR_SZ + 6) 2)
  let hlen := headerLen f.bytes HDR_SZ
  { start := 8 * (offset &&& 0x1fff)
    more := offset &&& 0x2000 ≠ 0
    data := (List.range (totalLen f.bytes HDR_SZ - hlen)).map fun i => f.bytes (HDR_SZ + hlen + i) }

/-! ## The offset field -/

theorem land_1fff (n : ℕ) : n &&& 0x1fff = n % 2 ^ 13 := Nat.and_two_pow_sub_one_eq_mod n 13

theorem land_2000 (n : ℕ) : n &&& 0x2000 ≠ 0 ↔ n / 2 ^ 13 % 2 = 1 := by
  have hbit : n &&& 0x2000 = (n.testBit 13).toNat * 2 ^ 13 := Nat.and_two_pow n 13
  rw [hbit, Nat.testBit_eq_decide_div_mod_eq]
  by_cases h : n / 2 ^ 13 % 2 = 1
  · rw [decide_eq_true h]
    exact iff_of_true (by decide) h
  · rw [decide_eq_false h]
    exact iff_of_false (by decide) h

theorem lor_2000 {x : ℕ} (h : x < 2 ^ 13) : 0x2000 ||| x = 2 ^ 13 + x := by
  have hor := Nat.shiftLeft_add_eq_or_of_lt h 1
  rw [Nat.shiftLeft_eq, Nat.one_mul] at hor
  exact hor.symm

/-- The flag and the position that `ip_tx` puts into one number. -/
theorem offset_eq {done : ℕ} (h : done < 2 ^ 16) (c : Prop) [Decidable c] :
    (if c then 0x2000 else 0x0000) ||| ((done >>> 3) &&& 0x1fff) = (if c then 2 ^ 13 else 0) + done / 8 := by
  have hpos : (done >>> 3) &&& 0x1fff = done / 8 := by
    rw [land_1fff, Nat.shiftRight_eq_div_pow]
    exact Nat.mod_eq_of_lt (by omega)
  rw [hpos]
  by_cases hc : c
  · rw [if_pos hc, if_pos hc]
    exact lor_2000 (by omega)
  · rw [if_neg hc, if_neg hc, Nat.zero_or, Nat.zero_add]

/-! ## A packet -/

section

variable (page buf : ℕ → UInt8) (protocol len id offset src dst : ℕ)

theorem ipHeader_vhl_ : getLE (ipHeader page protocol len id offset src dst) 0 1 = 0x45 := by
  simp (disch := omega) only [ipHeader, getLE_putLE, getLE_putLE_of_disjoint]
  rfl

theorem ipHeader_len_ :
    getLE (ipHeader page protocol len id offset src dst) 2 2 = byteswap16 (ip_hdr_size + len) := by
  simp (disch := omega) only [ipHeader, getLE_putLE, getLE_putLE_of_disjoint]
  exact Nat.mod_eq_of_lt (byteswap16_lt _)

theorem ipHeader_id_ : getLE (ipHeader page protocol len id offset src dst) 4 2 = byteswap16 id := by
  simp (disch := omega) only [ipHeader, getLE_putLE, getLE_putLE_of_disjoint]
  exact Nat.mod_eq_of_lt (byteswap16_lt _)

theorem ipHeader_offset_ :
    getLE (ipHeader page protocol len id offset src dst) 6 2 = byteswap16 offset := by
  simp (disch := omega) only [ipHeader, getLE_putLE, getLE_putLE_of_disjoint]
  exact Nat.mod_eq_of_lt (byteswap16_lt _)

theorem ipHeader_ttl_ : getLE (ipHeader page protocol len id offset src dst) 8 1 = 0xff := by
  simp (disch := omega) only [ipHeader, getLE_putLE, getLE_putLE_of_disjoint]
  rfl

theorem ipHeader_sum_ : getLE (ipHeader page protocol len id offset src dst) 10 2 = 0 := by
  simp (disch := omega) only [ipHeader, getLE_putLE, getLE_putLE_of_disjoint]
  rfl

/-- The other fields are as they were before the checksum and the payload were put in. -/
theorem getLE_ipPacket {b w : ℕ} (h : b + w ≤ 10 ∨ 12 ≤ b ∧ b + w ≤ ip_hdr_size) :
    getLE (ipPacket page protocol buf len id offset src dst) b w =
      getLE (ipHeader page protocol len id offset src dst) b w := by
  simp only [ip_hdr_size] at h
  unfold ipPacket
  dsimp only [ip_hdr_size]
  rw [getLE_copyTo_of_disjoint (by omega), getLE_putLE_of_disjoint (by omega)]

/-- The header of a packet checks out. -/
theorem cksum16_ipPacket (h : len < 2 ^ 15) :
    cksum16 (ipPacket page protocol buf len id offset src dst) 0 ip_hdr_size 0 = 0 := by
  have hcopy : cksum16 (ipPacket page protocol buf len id offset src dst) 0 ip_hdr_size 0 =
      cksum16 (putLE (ipHeader page protocol len id offset src dst) 10 2
        (cksum16 (ipHeader page protocol len id offset src dst) 0 ip_hdr_size 0)) 0 ip_hdr_size 0 :=
    cksum16_congr fun i _ hi => copyTo_of_not_mem (.inl (by omega))
  rw [hcopy]
  -- the length of the packet is not zero, so neither is the sum of the words
  refine cksum16_putLE (n := 10) (j := 5) (by decide) (by decide) (ipHeader_sum_ ..) ?_
  refine wordSum_pos (j := 1) (by decide) ?_
  have hlen := ipHeader_len_ page protocol len id offset src dst
  rw [byteswap16_eq] at hlen
  show 0 < getLE (ipHeader page protocol len id offset src dst) 2 2
  simp only [ip_hdr_size] at hlen
  omega

end

/-! ## A frame -/

/-- The frame carries `len` bytes of `buf` with the offset field `offset`. -/
structure Carries (f : Frame) (buf : ℕ → UInt8) (len id offset : ℕ) : Prop where
  type_ : byteswap16 (getLE f.bytes 12 2) = ETHERNET_TYPE_IP
  id_ : byteswap16 (getLE f.bytes (HDR_SZ + 4) 2) = id
  accepted : Accepted f.bytes HDR_SZ (f.flen - HDR_SZ)
  header : headerLen f.bytes HDR_SZ = ip_hdr_size
  total : totalLen f.bytes HDR_SZ = ip_hdr_size + len
  piece : f.piece = ⟨8 * (offset % 2 ^ 13), offset / 2 ^ 13 % 2 = 1, (List.range len).map buf⟩

/-- **What `ip_tx_helper` sends.** -/
theorem ip_tx_helper_eq {dev : E1000} {s : NetState} {page : ℕ → UInt8} {len id : ℕ} (protocol : ℕ)
    (buf : ℕ → UInt8) (src dst offset : ℕ) (hpage : dev.kalloc s.nkalloc = some page) (hlen : len ≤ 1480)
    (hid : id < 2 ^ 16) (hoffset : offset < 2 ^ 16) :
    ∃ f, ip_tx_helper dev s protocol buf len src dst id offset =
        some { s with nkalloc := s.nkalloc + 1, sent := s.sent ++ [f] } ∧ Carries f buf len id offset := by
  have h20 : ip_hdr_size = 20 := rfl
  have h14 : HDR_SZ = 14 := rfl
  set packet := ipPacket page protocol buf len id offset src dst with hpacket
  -- the frame, and how its bytes behind the Ethernet header are those of the packet
  obtain ⟨f, hf, htype, hflen, hbytes⟩ : ∃ f, ip_tx_eth dev packet (ip_hdr_size + len) = some f ∧
      getLE f.bytes 12 2 = byteswap16 ETHERNET_TYPE_IP ∧ ip_hdr_size + len ≤ f.flen - HDR_SZ ∧
      ∀ i < ip_hdr_size + len, f.bytes (HDR_SZ + i) = packet i := by
    have hfits : ¬MAX_PAYLOAD_SIZE < ip_hdr_size + len := by
      simp only [MAX_PAYLOAD_SIZE]
      omega
    refine ⟨_, if_neg hfits, ?_, ?_, fun i hi => ?_⟩
    · rw [getLE_copyTo_of_disjoint (by omega), getLE_putLE]
      rfl
    · dsimp only
      split
      · omega
      · omega
    · dsimp only
      rw [copyTo_of_mem (Nat.le_add_right _ _) (by omega), Nat.add_sub_cancel_left]
  have hfield : ∀ b w, b + w ≤ ip_hdr_size → getLE f.bytes (HDR_SZ + b) w = getLE packet b w := by
    intro b w hbw
    rw [← getLE_shift]
    exact getLE_congr fun i _ hi => hbytes i (by omega)
  have hvhl : getLE f.bytes HDR_SZ 1 = 0x45 := by
    rw [← Nat.add_zero HDR_SZ, hfield 0 1 (by decide), hpacket, getLE_ipPacket _ _ _ _ _ _ _ _ (by omega),
      ipHeader_vhl_]
  have hheader : headerLen f.bytes HDR_SZ = ip_hdr_size := by
    unfold headerLen
    rw [hvhl]
    rfl
  have htotal : totalLen f.bytes HDR_SZ = ip_hdr_size + len := by
    unfold totalLen
    rw [hfield 2 2 (by decide), hpacket, getLE_ipPacket _ _ _ _ _ _ _ _ (by omega), ipHeader_len_,
      byteswap16_byteswap16]
    exact Nat.mod_eq_of_lt (by omega)
  refine ⟨f, ?_, ⟨?_, ?_, ⟨?_, ?_, ?_, ?_, ?_, ?_⟩, hheader, htotal, ?_⟩⟩
  · unfold ip_tx_helper
    rw [hpage, Option.bind_eq_bind, Option.bind_some]
    dsimp only
    rw [← hpacket, hf]
    rfl
  · rw [htype, byteswap16_byteswap16]
    rfl
  · rw [hfield 4 2 (by decide), hpacket, getLE_ipPacket _ _ _ _ _ _ _ _ (by omega), ipHeader_id_,
      byteswap16_byteswap16]
    exact Nat.mod_eq_of_lt hid
  · omega
  · rw [hfield 8 1 (by decide), hpacket, getLE_ipPacket _ _ _ _ _ _ _ _ (by omega), ipHeader_ttl_]
    decide
  · rw [hvhl]
    rfl
  · rw [hheader]
    omega
  · rw [htotal]
    exact hflen
  · have hshift : cksum16 f.bytes HDR_SZ ip_hdr_size 0 = cksum16 packet 0 ip_hdr_size 0 := by
      have hwords : wordSum f.bytes HDR_SZ 10 = wordSum packet 0 10 := by
        unfold wordSum
        refine Finset.sum_congr rfl fun i hi => ?_
        have hlt := Finset.mem_range.mp hi
        rw [hfield _ _ (by omega), Nat.zero_add]
      rw [show ip_hdr_size = 2 * 10 from rfl, cksum16_even (by decide), cksum16_even (by decide), hwords]
    rw [hheader, hshift]
    exact cksum16_ipPacket _ _ _ _ _ _ _ _ (by omega)
  · have hoff : byteswap16 (getLE f.bytes (HDR_SZ + 6) 2) = offset := by
      rw [hfield 6 2 (by decide), hpacket, getLE_ipPacket _ _ _ _ _ _ _ _ (by omega), ipHeader_offset_,
        byteswap16_byteswap16]
      exact Nat.mod_eq_of_lt hoffset
    have hdata : (List.range len).map (fun i => f.bytes (HDR_SZ + ip_hdr_size + i)) =
        (List.range len).map buf := by
      refine List.map_congr_left fun i hi => ?_
      have hlt := List.mem_range.mp hi
      rw [Nat.add_assoc, hbytes _ (by omega), hpacket, ipPacket, copyTo_of_mem (by omega) (by omega),
        Nat.add_sub_cancel_left]
    have hmore : decide (offset &&& 0x2000 ≠ 0) = decide (offset / 2 ^ 13 % 2 = 1) :=
      decide_eq_decide.mpr (land_2000 _)
    unfold Frame.piece
    rw [hoff, hheader, htotal]
    dsimp only
    rw [land_1fff, Nat.add_sub_cancel_left, hdata, hmore]

/-! ## The loop -/

/-- **The rest of a payload goes out in pieces that lie one after the other.** -/
theorem ipTxLoop_eq {dev : E1000} (protocol : ℕ) (buf : ℕ → UInt8) {len id n done : ℕ} (src dst : ℕ)
    (hmtu : dev.mtu_ = 1500) (hkalloc : ∀ i, (dev.kalloc i).isSome = true) (hid : id < 2 ^ 16)
    (hlen : len ≤ 65515) (s : NetState) (hunit : 8 ∣ done) (hdone : done < len) (hn : len - done < n) :
    ∃ s' fs, ipTxLoop dev protocol buf len src dst id n s done = some s' ∧ s'.sent = s.sent ++ fs ∧
      Tiles done (fs.map Frame.piece) ((List.range (len - done)).map fun i => buf (done + i)) ∧
      ∀ f ∈ fs, ∃ buf' len' offset, len' ≤ 1480 ∧ Carries f buf' len' id offset := by
  induction n generalizing done s with
  | zero => omega
  | succ n ih =>
    obtain ⟨page, hpage⟩ := Option.isSome_iff_exists.mp (hkalloc s.nkalloc)
    unfold ipTxLoop
    rw [if_pos hdone, hmtu]
    dsimp only
    rw [show (1500 + 2 ^ 64 - IP_HDR_SIZE_MIN) % 2 ^ 64 = 1480 by decide, offset_eq (by omega)]
    by_cases hlast : len - done ≤ 1480
    · -- the last packet takes all that is left
      rw [Nat.min_eq_left hlast, if_neg (by omega), Nat.zero_add]
      obtain ⟨f, hf, hcarries⟩ := ip_tx_helper_eq protocol (fun i => buf (done + i)) src dst (done / 8)
        hpage hlast hid (by omega)
      rw [hf, Option.bind_eq_bind, Option.bind_some, Nat.add_sub_cancel' hdone.le]
      obtain ⟨n, rfl⟩ : ∃ m, n = m + 1 := ⟨n - 1, by omega⟩
      unfold ipTxLoop
      rw [if_neg (Nat.lt_irrefl _)]
      refine ⟨_, [f], rfl, rfl, ?_, fun g hg => ?_⟩
      · have hpiece : f.piece = ⟨done, false, (List.range (len - done)).map fun i => buf (done + i)⟩ := by
          rw [hcarries.piece, decide_eq_false (by omega)]
          congr 1
          omega
        rw [List.map_singleton, hpiece]
        refine .last _ _ fun hnil => ?_
        rw [List.map_eq_nil_iff, List.range_eq_nil] at hnil
        omega
      · obtain rfl := List.mem_singleton.mp hg
        exact ⟨_, _, _, hlast, hcarries⟩
    · rw [Nat.min_eq_right (by omega), if_pos (by omega)]
      obtain ⟨f, hf, hcarries⟩ := ip_tx_helper_eq protocol (fun i => buf (done + i)) src dst
        (2 ^ 13 + done / 8) hpage (le_refl 1480) hid (by omega)
      rw [hf, Option.bind_eq_bind, Option.bind_some]
      obtain ⟨s', fs, hs', hsent, htiles, hall⟩ := ih
        { s with nkalloc := s.nkalloc + 1, sent := s.sent ++ [f] } (show 8 ∣ done + 1480 by omega) (by omega) (by omega)
      refine ⟨s', f :: fs, hs', ?_, ?_, fun g hg => ?_⟩
      · rw [hsent, List.append_assoc]
        rfl
      · have hpiece : f.piece = ⟨done, true, (List.range 1480).map fun i => buf (done + i)⟩ := by
          rw [hcarries.piece, decide_eq_true (by omega)]
          congr 1
          omega
        have hsplit : (List.range (len - done)).map (fun i => buf (done + i)) =
            (List.range 1480).map (fun i => buf (done + i)) ++
              (List.range (len - (done + 1480))).map fun i => buf (done + 1480 + i) := by
          rw [show len - done = 1480 + (len - (done + 1480)) by omega, List.range_add, List.map_append,
            List.map_map]
          simp only [Function.comp_def, Nat.add_assoc]
        rw [List.map_cons, hpiece, hsplit]
        refine .cons _ _ _ _ (fun hnil => ?_) ?_
        · rw [List.map_eq_nil_iff, List.range_eq_nil] at hnil
          omega
        · rw [List.length_map, List.length_range]
          exact htiles
      · rcases List.mem_cons.mp hg with rfl | hg
        · exact ⟨_, _, _, le_rfl, hcarries⟩
        · exact hall g hg

/--
**What is sent reassembles to the payload.** Every packet fits the MTU of the device, and its header passes
the checks of `ip_rx`.
-/
theorem ip_tx_reassembles {dev : E1000} (s : NetState) (protocol : ℕ) (buf : ℕ → UInt8) {len : ℕ} (dst : ℕ)
    (hmtu : dev.mtu_ = 1500) (hkalloc : ∀ i, (dev.kalloc i).isSome = true) (hpos : 1 ≤ len)
    (hlen : len ≤ 65515) :
    ∃ s' fs, ip_tx dev s protocol buf len dst = some s' ∧ s'.sent = s.sent ++ fs ∧
      Reassembles (fs.map Frame.piece) ((List.range len).map buf) ∧
      ∀ f ∈ fs, byteswap16 (getLE f.bytes 12 2) = ETHERNET_TYPE_IP ∧
        byteswap16 (getLE f.bytes (HDR_SZ + 4) 2) = (s.ip_id + 1) % 2 ^ 16 ∧
        Accepted f.bytes HDR_SZ (f.flen - HDR_SZ) ∧
        headerLen f.bytes HDR_SZ + f.piece.data.length ≤ dev.mtu_ := by
  have hid : (s.ip_id + 1) % 2 ^ 16 < 2 ^ 16 := Nat.mod_lt _ (by decide)
  obtain ⟨s', fs, hs', hsent, htiles, hall⟩ := ipTxLoop_eq protocol buf (n := len + 1) chickadee_addr
    dst hmtu hkalloc hid hlen { s with ip_id := (s.ip_id + 1) % 2 ^ 16 } (dvd_zero 8) hpos (by omega)
  simp only [Nat.sub_zero, Nat.zero_add] at htiles
  refine ⟨s', fs, hs', hsent, htiles.reassembles, fun f hf => ?_⟩
  obtain ⟨buf', len', offset, hle, hcarries⟩ := hall f hf
  refine ⟨hcarries.type_, hcarries.id_, hcarries.accepted, ?_⟩
  rw [hcarries.piece, hcarries.header, hmtu]
  dsimp only
  rw [List.length_map, List.length_range]
  exact Nat.add_le_add_left hle 20

/-- A device whose memory never runs out. -/
def plainDevice : E1000 where
  addr_ := fun _ => 2
  mtu_ := 1500
  ha := fun _ => 4
  pa := IP_ADDR_BROADCAST
  kalloc := fun _ => some fun _ => 0xee

theorem ip_tx_reassembles_full :
    ∃ s' fs, ip_tx plainDevice ⟨128, 0, []⟩ IP_PROTOCOL_ICMP (fun i => UInt8.ofNat i) 2960 default_addr = some s' ∧
      s'.sent = [] ++ fs ∧
      Reassembles (fs.map Frame.piece) ((List.range 2960).map fun i => UInt8.ofNat i) ∧
      ∀ f ∈ fs, byteswap16 (getLE f.bytes 12 2) = ETHERNET_TYPE_IP ∧
        byteswap16 (getLE f.bytes (HDR_SZ + 4) 2) = (128 + 1) % 2 ^ 16 ∧
        Accepted f.bytes HDR_SZ (f.flen - HDR_SZ) ∧
        headerLen f.bytes HDR_SZ + f.piece.data.length ≤ plainDevice.mtu_ :=
  ip_tx_reassembles ⟨128, 0, []⟩ IP_PROTOCOL_ICMP (fun i => UInt8.ofNat i) default_addr rfl (fun _ => rfl)
    (by decide) (by decide)

end Chickadee.Net
