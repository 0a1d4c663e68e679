import Chickadee.Lib.Onesum

/-!
# IP and ICMP packets

`ip_tx` cuts a payload into packets and sends each in an Ethernet frame; a frame that comes in goes through
`ip_rx` to `icmp_rx`, and an echo request is answered. Packets are bytes in memory. For a frame that comes in
the accesses to its bytes are kept, for nothing but the checks keeps them inside it.
-/

namespace Chickadee.Net

open Lib

abbrev IP_VERSION_IPV4 : ℕ := 4

abbrev IP_HDR_SIZE_MIN : ℕ := 20

abbrev IP_PROTOCOL_ICMP : ℕ := 1

abbrev IP_ADDR_BROADCAST : ℕ := 0xffffffff

abbrev ETHERNET_TYPE_IP : ℕ := 0x0800

abbrev MAX_PAYLOAD_SIZE : ℕ := 1500

abbrev MIN_PAYLOAD_SIZE : ℕ := 46

abbrev ADDR_LEN : ℕ := 6

/-- `sizeof(eth_header)` -/
abbrev HDR_SZ : ℕ := 14

/-- `sizeof(ip_hdr)` -/
abbrev ip_hdr_size : ℕ := 20

/-- `sizeof(icmp_hdr)` -/
abbrev icmp_hdr_size : ℕ := 8

/-- `IP_PAYLOAD_SIZE_MAX` -/
abbrev ICMP_BUFSIZ : ℕ := 65535 - IP_HDR_SIZE_MIN

abbrev ICMP_TYPE_ECHOREPLY : ℕ := 0

abbrev ICMP_TYPE_ECHO : ℕ := 8

/-! ## The device -/

/-- A frame: its bytes, and how many there are. -/
structure Frame where
  bytes : ℕ → UInt8
  flen : ℕ

/-- The device, the first entry of the ARP table, and what `kalloc` gives at each call. -/
structure E1000 where
  addr_ : ℕ → UInt8
  mtu_ : ℕ
  ha : ℕ → UInt8
  pa : ℕ
  kalloc : ℕ → Option (ℕ → UInt8)

/-- The counter of identifications, the calls of `kalloc` so far, and the frames sent. -/
structure NetState where
  ip_id : ℕ
  nkalloc : ℕ
  sent : List Frame

/-- `e1000state::byteswap16(vc)` -/
def byteswap16 (vc : ℕ) : ℕ := (vc &&& 0x00ff) <<< 8 ||| (vc &&& 0xff00) >>> 8

/-- `arp_func::inet_pton(ip_vals)` -/
def inet_pton (a b c d : ℕ) : ℕ := (d <<< 24 + c <<< 16 + b <<< 8 + a) % 2 ^ 32

abbrev chickadee_addr : ℕ := inet_pton 172 17 0 15

abbrev default_addr : ℕ := inet_pton 172 17 0 1

/-- `tx_ethernet_formatter(meta, type, payload, plen, dst)`, for pointers that are not null. -/
def tx_ethernet_formatter (dev : E1000) (type : ℕ) (payload : ℕ → UInt8) (plen : ℕ) (dst : ℕ → UInt8) :
    Option Frame :=
  if MAX_PAYLOAD_SIZE < plen then none
  else
    let frame := copyTo (fun _ => 0) 0 ADDR_LEN dst
    let frame := copyTo frame ADDR_LEN ADDR_LEN dev.addr_
    let frame := putLE frame 12 2 (byteswap16 type)
    let frame := copyTo frame HDR_SZ plen payload
    let plen := if plen < MIN_PAYLOAD_SIZE then MIN_PAYLOAD_SIZE else plen
    some ⟨frame, HDR_SZ + plen⟩

/-! ## Sending -/

/-- The loop of `cksum16`. -/
def cksumLoop (m : ℕ → UInt8) : ℕ → ℕ → ℕ → ℕ
  | data, size + 2, sum => cksumLoop m (data + 2) size ((sum + getLE m data 2) % 2 ^ 32)
  | data, 1, sum => (sum + getLE m data 1) % 2 ^ 32
  | _, 0, sum => sum

/-- `cksum16(data, size, it)` -/
def cksum16 (m : ℕ → UInt8) (data size it : ℕ) : ℕ :=
  let sum := cksumLoop m data size it
  let sum := fold16 sum
  let sum := fold16 sum
  65535 - sum % 2 ^ 16

/-- `ip_tx_eth(meta, packet, plen, dst)`: what goes out. -/
def ip_tx_eth (dev : E1000) (packet : ℕ → UInt8) (plen : ℕ) : Option Frame :=
  let broadcast : ℕ → UInt8 := fun i => if i < ADDR_LEN then 0xff else 0
  let dst_ := getLE packet 16 4
  let opt :=
    if dst_ ≤ default_addr ∧ chickadee_addr ≤ dst_ then broadcast
    else if dev.pa ≠ IP_ADDR_BROADCAST then copyTo (fun _ => 0) 0 ADDR_LEN dev.ha
    else broadcast
  tx_ethernet_formatter dev ETHERNET_TYPE_IP packet plen opt

/-- The header that `ip_tx_helper` writes, before its checksum is put in. -/
def ipHeader (packet : ℕ → UInt8) (protocol len id offset src dst : ℕ) : ℕ → UInt8 :=
  let hlen := ip_hdr_size
  let packet := putLE packet 0 1 (IP_VERSION_IPV4 <<< 4 ||| hlen >>> 2)
  let packet := putLE packet 1 1 0
  let packet := putLE packet 2 2 (byteswap16 (hlen + len))
  let packet := putLE packet 4 2 (byteswap16 id)
  let packet := putLE packet 6 2 (byteswap16 offset)
  let packet := putLE packet 8 1 0xff
  let packet := putLE packet 9 1 protocol
  let packet := putLE packet 10 2 0
  let packet := putLE packet 12 4 src
  putLE packet 16 4 dst

/-- The packet of `ip_tx_helper`, in the memory that was allocated for it. -/
def ipPacket (packet : ℕ → UInt8) (protocol : ℕ) (buf : ℕ → UInt8) (len id offset src dst : ℕ) : ℕ → UInt8 :=
  let packet := ipHeader packet protocol len id offset src dst
  let packet := putLE packet 10 2 (cksum16 packet 0 ip_hdr_size 0)
  copyTo packet ip_hdr_size len buf

/-- `ip_tx_helper(meta, protocol, buf, len, src, dst, nexthop, id, offset)`; a null packet is a fault. -/
def ip_tx_helper (dev : E1000) (s : NetState) (protocol : ℕ) (buf : ℕ → UInt8) (len src dst id offset : ℕ) :
    Option NetState := do
  let packet ← dev.kalloc s.nkalloc
  let packet := ipPacket packet protocol buf len id offset src dst
  return { s with
    nkalloc := s.nkalloc + 1
    sent := s.sent ++ (ip_tx_eth dev packet (ip_hdr_size + len)).toList }

/-- The loop of `ip_tx`, for up to `n` packets. -/
def ipTxLoop (dev : E1000) (protocol : ℕ) (buf : ℕ → UInt8) (len src dst id : ℕ) : ℕ → NetState → ℕ → Option NetState
  | 0, _, _ => none
  | n + 1, s, done =>
    if done < len then do
      let slen := min (len - done) ((dev.mtu_ + 2 ^ 64 - IP_HDR_SIZE_MIN) % 2 ^ 64)
      let flag := if done + slen < len then 0x2000 else 0x0000
      let offset := flag ||| ((done >>> 3) &&& 0x1fff)
      let s ← ip_tx_helper dev s protocol (fun i => buf (done + i)) slen src dst id offset
      ipTxLoop dev protocol buf len src dst id n s (done + slen)
    else some s

/-- `ip_tx(meta, protocol, buf, len, dst)` -/
def ip_tx (dev : E1000) (s : NetState) (protocol : ℕ) (buf : ℕ → UInt8) (len dst : ℕ) : Option NetState :=
  let id := (s.ip_id + 1) % 2 ^ 16
  ipTxLoop dev protocol buf len chickadee_addr dst id (len + 1) { s with ip_id := id } 0

/-! ## Receiving -/

/-- What handling a frame does: loads of its bytes, and copies of them into an ICMP buffer. -/
inductive Rx
  | done (s : Option NetState)
  /-- `n` bytes at `a` are read. -/
  | load (a n : ℕ) (next : Rx)
  /-- `n` bytes from `src` on are copied to position `dst` of the buffer. -/
  | copy (src n dst : ℕ) (next : Rx)

/-- The message of `icmp_tx` before its checksum is put in. -/
def icmpMessage (buf : ℕ → UInt8) (type_ code_ values : ℕ) (data : ℕ → UInt8) (len : ℕ) : ℕ → UInt8 :=
  let buf := putLE buf 0 1 type_
  let buf := putLE buf 1 1 code_
  let buf := putLE buf 2 2 0
  let buf := putLE buf 4 4 values
  copyTo buf icmp_hdr_size len data

/-- `icmp_tx(type, code, values, data, len, dst)` with the data at `data` in the memory `m`. -/
def icmp_tx (dev : E1000) (s : NetState) (type code values : ℕ) (m : ℕ → UInt8) (data len dst : ℕ) : Rx :=
  match dev.kalloc s.nkalloc with
  | none => .done (some s)
  | some buf =>
    let s := { s with nkalloc := s.nkalloc + 1 }
    .copy data len icmp_hdr_size <|
    let hdr := icmpMessage buf type code values (fun i => m (data + i)) len
    let msg_len := (icmp_hdr_size + len) % 2 ^ 64
    let hdr := putLE hdr 2 2 (cksum16 hdr 0 (msg_len % 2 ^ 16) 0)
    .done (ip_tx dev s IP_PROTOCOL_ICMP hdr msg_len dst)

/-- `icmp_rx(packet, plen, src, dst)`: `src` is the place of the sender's address. -/
def icmp_rx (dev : E1000) (s : NetState) (m : ℕ → UInt8) (packet plen src : ℕ) : Rx :=
  if plen < icmp_hdr_size then .done (some s)
  else
    .load packet 1 <|
    let type_ := getLE m packet 1
    if type_ = ICMP_TYPE_ECHO then
      .load (packet + 1) 1 <|
      .load (packet + 4) 4 <|
      .load src 4 <|
      icmp_tx dev s ICMP_TYPE_ECHOREPLY (getLE m (packet + 1) 1) (getLE m (packet + 4) 4) m
        (packet + icmp_hdr_size) (plen - icmp_hdr_size) (getLE m src 4)
    else if type_ = ICMP_TYPE_ECHOREPLY then
      -- the statistics go to the console
      .load (packet + 4) 4 <|
      .load src 4 <|
      .done (some s)
    else .done (some s)

/-- The header length that a packet gives. -/
def headerLen (m : ℕ → UInt8) (packet : ℕ) : ℕ := (getLE m packet 1 &&& 0x0f) <<< 2

/-- The total length that a packet gives. -/
def totalLen (m : ℕ → UInt8) (packet : ℕ) : ℕ := byteswap16 (getLE m (packet + 2) 2)

/-- `plen` of `ip_rx`, a difference of unsigned numbers. -/
def payloadLen (m : ℕ → UInt8) (packet : ℕ) : ℕ := (totalLen m packet + 2 ^ 64 - headerLen m packet) % 2 ^ 64

/-- `ip_rx(packet, dlen, meta)` -/
def ip_rx (dev : E1000) (s : NetState) (m : ℕ → UInt8) (packet dlen : ℕ) : Rx :=
  if dlen < ip_hdr_size then .done (some s)
  else
    .load (packet + 8) 1 <|
    if getLE m (packet + 8) 1 = 0 then .done (some s)
    else
      .load packet 1 <|
      if getLE m packet 1 >>> 4 ≠ IP_VERSION_IPV4 then .done (some s)
      else
        let hlen := headerLen m packet
        if dlen < hlen then .done (some s)
        else
          .load (packet + 2) 2 <|
          if dlen < totalLen m packet then .done (some s)
          else
            .load packet hlen <|
            if cksum16 m packet hlen 0 ≠ 0 then .done (some s)
            else
              let payload := packet + hlen
              let plen := payloadLen m packet
              .load (packet + 6) 2 <|
              let offset := byteswap16 (getLE m (packet + 6) 2)
              if offset &&& 0x2000 ≠ 0 ∨ offset &&& 0x1fff ≠ 0 then .done (some s)
              else
                .load (packet + 9) 1 <|
                if getLE m (packet + 9) 1 = IP_PROTOCOL_ICMP then
                  icmp_rx dev s m payload plen (packet + 12)
                else .done (some s)

/-- `rx_ethernet_formatter(meta, frame, flen)`; what ARP does with its packets is not modelled. -/
def rx_ethernet_formatter (dev : E1000) (s : NetState) (m : ℕ → UInt8) (flen : ℕ) : Rx :=
  if flen < HDR_SZ then .done (some s)
  else
    .load 12 2 <|
    let plen := flen - HDR_SZ
    if byteswap16 (getLE m 12 2) = ETHERNET_TYPE_IP then ip_rx dev s m HDR_SZ plen else .done (some s)

/-- The checks that `ip_rx` makes before it goes on to the payload. -/
structure Accepted (m : ℕ → UInt8) (packet dlen : ℕ) : Prop where
  long : ip_hdr_size ≤ dlen
  ttl_ : getLE m (packet + 8) 1 ≠ 0
  version : getLE m packet 1 >>> 4 = IP_VERSION_IPV4
  header : headerLen m packet ≤ dlen
  total : totalLen m packet ≤ dlen
  sum_ : cksum16 m packet (headerLen m packet) 0 = 0

/-! ## Numbers in network order -/

theorem land_ff00 (n : ℕ) : (n &&& 0xff00) >>> 8 = n / 2 ^ 8 % 2 ^ 8 := by
  rw [Nat.shiftRight_and_distrib, Nat.shiftRight_eq_div_pow]
  exact Nat.and_two_pow_sub_one_eq_mod (n / 2 ^ 8) 8

theorem byteswap16_eq (n : ℕ) : byteswap16 n = n % 256 * 256 + n / 256 % 256 := by
  have hlow : n &&& 0x00ff = n % 2 ^ 8 := Nat.and_two_pow_sub_one_eq_mod n 8
  have hlt : n / 2 ^ 8 % 2 ^ 8 < 2 ^ 8 := Nat.mod_lt _ (by decide)
  rw [byteswap16, hlow, land_ff00, ← Nat.shiftLeft_add_eq_or_of_lt hlt, Nat.shiftLeft_eq]
  rfl

theorem byteswap16_lt (n : ℕ) : byteswap16 n < 2 ^ 16 := by
  rw [byteswap16_eq]
  omega

/-- The low 16 bits of a number are swapped back. -/
theorem byteswap16_byteswap16 (n : ℕ) : byteswap16 (byteswap16 n) = n % 2 ^ 16 := by
  rw [byteswap16_eq n, byteswap16_eq]
  have hlow : n % 256 < 256 := Nat.mod_lt _ (by decide)
  have hhigh : n / 256 % 256 < 256 := Nat.mod_lt _ (by decide)
  have hmod : (n % 256 * 256 + n / 256 % 256) % 256 = n / 256 % 256 := by omega
  have hdiv : (n % 256 * 256 + n / 256 % 256) / 256 = n % 256 := by omega
  rw [hmod, hdiv, Nat.mod_mod]
  omega

/-! ## The checksum -/

theorem cksumLoop_even (m : ℕ → UInt8) {sum : ℕ} (a n : ℕ) (h : sum < 2 ^ 32) :
    cksumLoop m a (2 * n) sum = (sum + wordSum m a n) % 2 ^ 32 := by
  induction n generalizing a sum with
  | zero => exact (Nat.mod_eq_of_lt h).symm
  | succ n ih =>
    have hlt : (sum + getLE m a 2) % 2 ^ 32 < 2 ^ 32 := Nat.mod_lt _ (by decide)
    rw [show 2 * (n + 1) = 2 * n + 2 by ring, cksumLoop, ih _ hlt, wordSum_succ, Nat.mod_add_mod,
      Nat.add_assoc]

theorem cksum16_even {m : ℕ → UInt8} {a n : ℕ} (hn : n < 2 ^ 15) :
    cksum16 m a (2 * n) 0 = 65535 - fold16 (fold16 (wordSum m a n)) := by
  have hsum := wordSum_le m a n
  have hle := fold16_fold16_le (s := wordSum m a n) (by omega)
  unfold cksum16
  rw [cksumLoop_even m a n (by decide), Nat.zero_add, Nat.mod_eq_of_lt (a := wordSum m a n) (by omega)]
  dsimp only
  rw [Nat.mod_eq_of_lt (by omega)]

/-- **A checksum that was put in checks out.** -/
theorem cksum16_putLE {m : ℕ → UInt8} {a n j : ℕ} (hn : n < 2 ^ 15) (hj : j < n)
    (hzero : getLE m (a + 2 * j) 2 = 0) (hpos : 0 < wordSum m a n) :
    cksum16 (putLE m (a + 2 * j) 2 (cksum16 m a (2 * n) 0)) a (2 * n) 0 = 0 := by
  have hsum := wordSum_le m a n
  rw [cksum16_even hn, cksum16_even hn, wordSum_putLE hj hzero (by omega),
    fold16_complement hpos (by omega)]

theorem cksumLoop_congr {m m' : ℕ → UInt8} {a n sum : ℕ} (h : ∀ i, a ≤ i → i < a + n → m i = m' i) :
    cksumLoop m a n sum = cksumLoop m' a n sum := by
  induction n using Nat.strong_induction_on generalizing a sum with
  | _ n ih =>
    match n, ih, h with
    | 0, _, _ => rfl
    | 1, _, h =>
      unfold cksumLoop
      rw [getLE_congr h]
    | n + 2, ih, h =>
      unfold cksumLoop
      rw [getLE_congr (m := m) fun i hi hi' => h i hi (by omega)]
      exact ih n (by omega) fun i hi hi' => h i (by omega) (by omega)

theorem cksum16_congr {m m' : ℕ → UInt8} {a n it : ℕ} (h : ∀ i, a ≤ i → i < a + n → m i = m' i) :
    cksum16 m a n it = cksum16 m' a n it := by
  unfold cksum16
  rw [cksumLoop_congr h]

end Chickadee.Net
