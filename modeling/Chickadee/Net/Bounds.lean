import Chickadee.Net.Ip

/-!
# Frames are read within their bounds

`ip_rx` compares the header length and the total length of a packet with the length received, but not with
one another, and it takes any header length that gives the right checksum.
-/

namespace Chickadee.Net

open Lib

/-- Loads stay inside the frame; copies stay inside the packet of `total` bytes, and inside the buffer. -/
def Rx.Inside (flen total : ℕ) : Rx → Prop
  | .done _ => True
  | .load a n next => a + n ≤ flen ∧ next.Inside flen total
  | .copy src n dst next =>
    (HDR_SZ ≤ src ∧ src + n ≤ HDR_SZ + total ∧ dst + n ≤ ICMP_BUFSIZ) ∧ next.Inside flen total

/-- The frame is handed to `ip_rx`, which goes on to the payload. -/
def Delivered (m : ℕ → UInt8) (flen : ℕ) : Prop :=
  HDR_SZ ≤ flen ∧ byteswap16 (getLE m 12 2) = ETHERNET_TYPE_IP ∧ Accepted m HDR_SZ (flen - HDR_SZ)

/-- The header and the payload that are read lie inside the frame, and so does what a reply copies. -/
structure Bounded (dev : E1000) (s : NetState) (m : ℕ → UInt8) (flen : ℕ) : Prop where
  header : Delivered m flen → ip_hdr_size ≤ headerLen m HDR_SZ ∧ headerLen m HDR_SZ ≤ totalLen m HDR_SZ
  total : Delivered m flen → totalLen m HDR_SZ ≤ flen - HDR_SZ
  plen : Delivered m flen → (payloadLen m HDR_SZ : ℤ) = totalLen m HDR_SZ - headerLen m HDR_SZ
  inside : (rx_ethernet_formatter dev s m flen).Inside flen (totalLen m HDR_SZ)

variable {dev : E1000} {s : NetState} {m : ℕ → UInt8} {flen total : ℕ}

theorem totalLen_lt (m : ℕ → UInt8) (packet : ℕ) : totalLen m packet < 2 ^ 16 := byteswap16_lt _

/-- No wrap, where the header is not longer than the packet. -/
theorem payloadLen_eq {packet : ℕ} (h : headerLen m packet ≤ totalLen m packet) :
    payloadLen m packet = totalLen m packet - headerLen m packet := by
  have hlt := totalLen_lt m packet
  unfold payloadLen
  omega

/-! ## What is read -/

/-- `icmp_tx` copies the data and nothing else. -/
theorem icmp_tx_inside {type code values data len dst : ℕ} (hlow : HDR_SZ ≤ data)
    (hhigh : data + len ≤ HDR_SZ + total) (hbuf : icmp_hdr_size + len ≤ ICMP_BUFSIZ) :
    (icmp_tx dev s type code values m data len dst).Inside flen total := by
  unfold icmp_tx
  split
  · exact trivial
  · exact ⟨⟨hlow, hhigh, hbuf⟩, trivial⟩

/-- A payload inside the packet. -/
theorem icmp_rx_inside {packet plen src : ℕ} (hlow : HDR_SZ ≤ packet) (hhigh : packet + plen ≤ HDR_SZ + total)
    (htotal : HDR_SZ + total ≤ flen) (hsrc : src + 4 ≤ flen) (hbuf : plen ≤ ICMP_BUFSIZ) :
    (icmp_rx dev s m packet plen src).Inside flen total := by
  have h8 : icmp_hdr_size = 8 := rfl
  unfold icmp_rx
  split
  · exact trivial
  next hlong =>
  refine ⟨by omega, ?_⟩
  dsimp only
  split
  · exact ⟨by omega, by omega, hsrc, icmp_tx_inside (by omega) (by omega) (by omega)⟩
  · split
    · exact ⟨by omega, hsrc, trivial⟩
    · exact trivial

/-- **A packet is read inside the frame**, if a header that is accepted is not too short or too long. -/
theorem ip_rx_inside (h14 : HDR_SZ ≤ flen)
    (h : Accepted m HDR_SZ (flen - HDR_SZ) →
      ip_hdr_size ≤ headerLen m HDR_SZ ∧ headerLen m HDR_SZ ≤ totalLen m HDR_SZ) :
    (ip_rx dev s m HDR_SZ (flen - HDR_SZ)).Inside flen (totalLen m HDR_SZ) := by
  have h20 : ip_hdr_size = 20 := rfl
  unfold ip_rx
  split
  · exact trivial
  next hlong =>
  refine ⟨by omega, ?_⟩
  split
  · exact trivial
  next httl =>
  refine ⟨by omega, ?_⟩
  split
  · exact trivial
  next hversion =>
  dsimp only
  split
  · exact trivial
  next hheader =>
  refine ⟨by omega, ?_⟩
  split
  · exact trivial
  next htotal =>
  refine ⟨by omega, ?_⟩
  split
  · exact trivial
  next hsum =>
  refine ⟨by omega, ?_⟩
  split
  · exact trivial
  refine ⟨by omega, ?_⟩
  split
  · -- all the checks have been passed
    obtain ⟨hlow, hhigh⟩ := h ⟨not_lt.mp hlong, httl, not_not.mp hversion, not_lt.mp hheader,
      not_lt.mp htotal, not_not.mp hsum⟩
    have hplen := payloadLen_eq hhigh
    have hlt := totalLen_lt m HDR_SZ
    have hbuf : ICMP_BUFSIZ = 65515 := rfl
    exact icmp_rx_inside (Nat.le_add_right _ _) (by omega) (by omega) (by omega) (by omega)
  · exact trivial

/--
**A frame is handled within its bounds exactly if** it is dropped by a check, or its header length is at least
20 and at most its total length.
-/
theorem bounded_iff (dev : E1000) (s : NetState) (m : ℕ → UInt8) (flen : ℕ) :
    Bounded dev s m flen ↔ (Delivered m flen →
      ip_hdr_size ≤ headerLen m HDR_SZ ∧ headerLen m HDR_SZ ≤ totalLen m HDR_SZ) := by
  refine ⟨fun h => h.header, fun h => ⟨h, fun hdelivered => hdelivered.2.2.total, fun hdelivered => ?_, ?_⟩⟩
  · obtain ⟨-, hhigh⟩ := h hdelivered
    rw [payloadLen_eq hhigh, Nat.cast_sub hhigh]
  · unfold rx_ethernet_formatter
    split
    · exact trivial
    next h14 =>
    have hlong := not_lt.mp h14
    dsimp only
    split
    · next htype => exact ⟨hlong, ip_rx_inside hlong fun haccepted => h ⟨hlong, htype, haccepted⟩⟩
    · exact ⟨hlong, trivial⟩

/-! A frame that goes wrong. -/

instance Rx.decidableInside (flen total : ℕ) : (rx : Rx) → Decidable (rx.Inside flen total)
  | .done _ => .isTrue trivial
  | .load a n next =>
    have := Rx.decidableInside flen total next
    inferInstanceAs (Decidable (a + n ≤ flen ∧ next.Inside flen total))
  | .copy src n dst next =>
    have := Rx.decidableInside flen total next
    inferInstanceAs (Decidable ((HDR_SZ ≤ src ∧ src + n ≤ HDR_SZ + total ∧ dst + n ≤ ICMP_BUFSIZ) ∧
      next.Inside flen total))

/-- An echo request whose total length is 0. -/
def emptyEcho : ℕ → UInt8 := fun i =>
  [0, 0, 0, 0, 0, 0, 0, 0, 0, 0, 0, 0, 0x08, 0x00,
    0x45, 0, 0, 0, 0, 0, 0, 0, 0xff, 1, 0x05, 0xdc, 10, 0, 0, 1, 172, 17, 0, 15, 8, 0].getD i 0

/-- It is accepted, and the reply copies almost 2^64 bytes. -/
theorem emptyEcho_unbounded : ∃ dev s, ¬Bounded dev s emptyEcho 60 ∧
    ¬(rx_ethernet_formatter dev s emptyEcho 60).Inside 60 (totalLen emptyEcho HDR_SZ) ∧
    payloadLen emptyEcho HDR_SZ = 2 ^ 64 - 20 := by
  have hinside : ¬(rx_ethernet_formatter ⟨fun _ => 2, 1500, fun _ => 4, 0, fun _ => some fun _ => 0⟩ ⟨128, 0, []⟩
      emptyEcho 60).Inside 60 (totalLen emptyEcho HDR_SZ) := by decide +kernel
  exact ⟨_, _, fun h => hinside h.inside, hinside, by decide +kernel⟩

end Chickadee.Net
