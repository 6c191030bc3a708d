import Coio.ByteOrderProofs
import Coio.HttpDecodeProofs
import Coio.LocalAddressProofs

/-! # `ipv4::address` — a port and a dotted quad

    The constructor stores the port in network order and lets `inet_pton` read the text
    into `sin_addr`; its result is not looked at.  `to_string` prints both again, and
    `operator==` compares them.  The kernel is given the bytes of the structure.

    `inet_pton` is read as the C library has it: one pass over the characters, which takes
    four numbers of at most 255 without leading zeros.  It accepts exactly the texts that
    `inet_ntop` prints (`inetPton_eq_some_iff`), so an address that was made from such a
    text is printed as it was written.  From any other text one gets the address of all
    interfaces, without a sign that something is wrong. -/

namespace CoioInetAddress

open CoioByteOrder CoioCString CoioHttpParser CoioHttpMessage CoioHttpDecode
open CoioLocalAddress (sizeofSockaddrIn)

/-! ## `endian.hpp`, on a little endian host -/

def hostToNet16 (x : Nat) : Nat := bswap 2 x

def hostToNet32 (x : Nat) : Nat := bswap 4 x

/-- `(htonl(x) << 32) + htonl(x >> 32)`; the argument of `htonl` has 32 bits. -/
def hostToNet64 (x : Nat) : Nat :=
  (hostToNet32 (x % 2 ^ 32) * 2 ^ 32 + hostToNet32 (x / 2 ^ 32 % 2 ^ 32)) % 2 ^ 64

def netToHost16 (x : Nat) : Nat := bswap 2 x

def netToHost32 (x : Nat) : Nat := bswap 4 x

def netToHost64 (x : Nat) : Nat :=
  (netToHost32 (x % 2 ^ 32) * 2 ^ 32 + netToHost32 (x / 2 ^ 32 % 2 ^ 32)) % 2 ^ 64

/-- The two halves are converted and change places. -/
theorem hostToNet64_eq {x : Nat} (hx : x < 2 ^ 64) : hostToNet64 x = bswap 8 x := by
  have hhigh : x / 2 ^ 32 % 2 ^ 32 = x / 256 ^ 4 := Nat.mod_eq_of_lt (by omega)
  have hlow : bswap 4 (x % 2 ^ 32) = bswap 4 x := bswap_mod 4 x
  have hlt : bswap 8 x < 2 ^ 64 := bswap_lt 8 x
  have hsplit : bswap 8 x = bswap 4 x * 2 ^ 32 + bswap 4 (x / 256 ^ 4) := bswap_add 4 4 x
  rw [hostToNet64, hostToNet32, hostToNet32, hhigh, hlow, ← hsplit, Nat.mod_eq_of_lt hlt]

/-- **NETWORK ORDER**: at each width what `host_to_net` gives has in memory the most
    significant byte first, and `net_to_host` gives the number back. -/
theorem host_to_net_order (x : UInt16) (y : UInt32) (z : UInt64) :
    (leBytes 2 (hostToNet16 x.toNat) = (leBytes 2 x.toNat).reverse ∧
        netToHost16 (hostToNet16 x.toNat) = x.toNat) ∧
      (leBytes 4 (hostToNet32 y.toNat) = (leBytes 4 y.toNat).reverse ∧
        netToHost32 (hostToNet32 y.toNat) = y.toNat) ∧
      (leBytes 8 (hostToNet64 z.toNat) = (leBytes 8 z.toNat).reverse ∧
        netToHost64 (hostToNet64 z.toNat) = z.toNat) := by
  have hback : netToHost64 (bswap 8 z.toNat) = bswap 8 (bswap 8 z.toNat) :=
    hostToNet64_eq (bswap_lt 8 z.toNat)
  refine ⟨⟨leBytes_bswap 2 _, ?_⟩, ⟨leBytes_bswap 4 _, ?_⟩, ?_⟩
  · exact (bswap_bswap 2 _).trans (Nat.mod_eq_of_lt x.toNat_lt)
  · exact (bswap_bswap 4 _).trans (Nat.mod_eq_of_lt y.toNat_lt)
  · rw [hostToNet64_eq z.toNat_lt, hback]
    exact ⟨leBytes_bswap 8 _, (bswap_bswap 8 _).trans (Nat.mod_eq_of_lt z.toNat_lt)⟩

/-! ## The C library -/

/-- `in_addr`, the bytes in memory. -/
structure InAddr where
  b0 : UInt8
  b1 : UInt8
  b2 : UInt8
  b3 : UInt8
  deriving DecidableEq

def InAddr.bytes (a : InAddr) : List UInt8 := [a.b0, a.b1, a.b2, a.b3]

/-- From the first four bytes somewhere in memory. -/
def InAddr.ofBytes (bs : List UInt8) : InAddr :=
  ⟨bs.getD 0 0, bs.getD 1 0, bs.getD 2 0, bs.getD 3 0⟩

/-- `INADDR_ANY`. -/
def inaddrAny : InAddr := ⟨0, 0, 0, 0⟩

/-- The text that `inet_ntop` prints. -/
def ntop (a : InAddr) : List UInt8 :=
  decimal a.b0.toNat ++ 46 :: (decimal a.b1.toNat ++ 46 :: (decimal a.b2.toNat ++
    46 :: decimal a.b3.toNat))

/-- `inet_ntop`; a buffer that is too small is left as it is. -/
def inetNtop (a : InAddr) (buf : List UInt8) : List UInt8 :=
  if (ntop a).length < buf.length then ntop a ++ 0 :: buf.drop ((ntop a).length + 1) else buf

/-- Inside of `inet_pton`: the numbers before the last dot, the number that is being read,
    and whether a digit of it has been seen. -/
structure Scan where
  past : List UInt8
  cur : Nat
  sawDigit : Bool
  deriving DecidableEq

def Scan.octets (t : Scan) : Nat := t.past.length + t.sawDigit.toNat

def scanStep (t : Scan) (c : UInt8) : Option Scan :=
  if isDigit c = true then
    -- no digit follows a leading zero
    if t.sawDigit = true ∧ t.cur = 0 then none
    else if t.cur * 10 + (c.toNat - 48) > 255 then none
    else if t.sawDigit = false ∧ t.octets + 1 > 4 then none
    else some { t with cur := t.cur * 10 + (c.toNat - 48), sawDigit := true }
  else if c = 46 ∧ t.sawDigit = true then
    if t.octets = 4 then none
    else some { past := t.past ++ [UInt8.ofNat t.cur], cur := 0, sawDigit := false }
  else none

/-- That a number with a leading zero is refused is the behaviour of the C library; nothing
    in the repository asks for it. -/
def inetPton (src : List UInt8) : Option InAddr :=
  (src.foldlM scanStep { past := [], cur := 0, sawDigit := false }).bind fun t =>
    if t.octets < 4 then none else some (InAddr.ofBytes (t.past ++ [UInt8.ofNat t.cur]))

/-! ## What `inet_pton` accepts -/

/-- What has been read when the scan stands at `t`. -/
structure Read (text : List UInt8) (t : Scan) : Prop where
  text_eq : text = t.past.flatMap (fun b => decimal b.toNat ++ [46]) ++
    if t.sawDigit = true then decimal t.cur else []
  cur_le : t.cur ≤ 255
  cur_zero : t.sawDigit = false → t.cur = 0
  past_le : t.past.length ≤ 3

theorem toNat_ofNat_octet {n : Nat} (hn : n ≤ 255) : (UInt8.ofNat n).toNat = n :=
  Nat.mod_eq_of_lt (by omega)

theorem digit_of_isDigit {c : UInt8} (hc : isDigit c = true) :
    c.toNat - 48 < 10 ∧ UInt8.ofNat (48 + (c.toNat - 48)) = c := by
  unfold isDigit at hc
  rw [Bool.and_eq_true, decide_eq_true_eq, decide_eq_true_eq, UInt8.le_iff_toNat_le,
    UInt8.le_iff_toNat_le] at hc
  have hlow : 48 ≤ c.toNat := hc.1
  have hhigh : c.toNat ≤ 57 := hc.2
  refine ⟨by omega, ?_⟩
  rw [Nat.add_sub_cancel' hlow]
  exact UInt8.ofNat_toNat

/-- **STEP LEMMA** of the scan. -/
theorem read_step {text : List UInt8} {t t' : Scan} {c : UInt8} (h : Read text t)
    (hs : scanStep t c = some t') : Read (text ++ [c]) t' := by
  unfold scanStep at hs
  split at hs
  · rename_i hdigit
    obtain ⟨hd, hbyte⟩ := digit_of_isDigit hdigit
    split at hs
    · cases hs
    · rename_i hzero
      split at hs
      · cases hs
      · rename_i hle
        split at hs
        · cases hs
        · obtain rfl := Option.some.inj hs
          refine ⟨?_, Nat.not_lt.mp hle, by simp, h.past_le⟩
          rw [h.text_eq, List.append_assoc, if_pos rfl]
          congr 1
          cases hsaw : t.sawDigit with
          | false =>
              rw [if_neg (by simp), h.cur_zero hsaw, Nat.zero_mul, Nat.zero_add,
                decimal_of_lt hd, hbyte, List.nil_append]
          | true =>
              have hpos : 0 < t.cur := Nat.pos_of_ne_zero fun h0 => hzero ⟨hsaw, h0⟩
              have hdiv : (t.cur * 10 + (c.toNat - 48)) / 10 = t.cur := by omega
              have hmod : (t.cur * 10 + (c.toNat - 48)) % 10 = c.toNat - 48 := by omega
              have hge : 10 ≤ t.cur * 10 + (c.toNat - 48) := by omega
              rw [if_pos rfl, decimal_of_le hge, hdiv, hmod, hbyte]
  · split at hs
    · rename_i hdot
      split at hs
      · cases hs
      · rename_i hmore
        obtain rfl := Option.some.inj hs
        have hle := h.past_le
        have hoctets : t.octets = t.past.length + 1 := by rw [Scan.octets, hdot.2, Bool.toNat_true]
        refine ⟨?_, Nat.zero_le _, fun _ => rfl, ?_⟩
        · rw [h.text_eq, if_pos hdot.2, hdot.1, List.flatMap_append, List.flatMap_singleton,
            toNat_ofNat_octet h.cur_le]
          simp
        · rw [List.length_append, List.length_singleton]
          omega
    · cases hs

theorem read_run {src text : List UInt8} {t t' : Scan} (h : Read text t)
    (hs : src.foldlM scanStep t = some t') : Read (text ++ src) t' := by
  induction src generalizing text t with
  | nil =>
      obtain rfl := Option.some.inj hs
      rwa [List.append_nil]
  | cons c src ih =>
      obtain ⟨u, hu, hrest⟩ := Option.bind_eq_some_iff.mp hs
      rw [List.append_cons]
      exact ih (read_step h hu) hrest

/-- What is accepted is the text of the result. -/
theorem ntop_of_inetPton {src : List UInt8} {a : InAddr} (h : inetPton src = some a) :
    src = ntop a := by
  obtain ⟨t, hscan, hend⟩ := Option.bind_eq_some_iff.mp h
  have hstart : Read [] { past := [], cur := 0, sawDigit := false } :=
    ⟨rfl, Nat.zero_le _, fun _ => rfl, Nat.zero_le _⟩
  have hread : Read src t := read_run hstart hscan
  split at hend
  · cases hend
  · rename_i hoctets
    obtain rfl := Option.some.inj hend
    have hle := hread.past_le
    have hsaw : t.sawDigit = true := by
      cases hsaw : t.sawDigit with
      | true => rfl
      | false =>
          rw [Scan.octets, hsaw, Bool.toNat_false] at hoctets
          omega
    have hlength : t.past.length = 3 := by
      rw [Scan.octets, hsaw, Bool.toNat_true] at hoctets
      omega
    obtain ⟨a, b, c, hpast⟩ := List.length_eq_three.mp hlength
    rw [hread.text_eq, if_pos hsaw, hpast, ntop]
    simp [InAddr.ofBytes, toNat_ofNat_octet hread.cur_le]

theorem scanStep_digit {t : Scan} {d : Nat} (hd : d < 10) (hlead : t.sawDigit = true → t.cur ≠ 0)
    (hle : t.cur * 10 + d ≤ 255) (hroom : t.sawDigit = false → t.octets + 1 ≤ 4) :
    scanStep t (UInt8.ofNat (48 + d))
      = some { t with cur := t.cur * 10 + d, sawDigit := true } := by
  have hvalue : (UInt8.ofNat (48 + d)).toNat - 48 = d := by
    rw [toNat_digit hd, Nat.add_sub_cancel_left]
  unfold scanStep
  rw [if_pos (isDigit_digit hd), hvalue, if_neg (fun h => hlead h.1 h.2),
    if_neg (Nat.not_lt.mpr hle), if_neg (fun h => Nat.not_lt.mpr (hroom h.1) h.2)]

/-- Scanning a number. -/
theorem scan_decimal {past : List UInt8} (hpast : past.length ≤ 3) (n : Nat) (hn : n ≤ 255) :
    (decimal n).foldlM scanStep { past := past, cur := 0, sawDigit := false }
      = some { past := past, cur := n, sawDigit := true } := by
  -- the last digit comes off, as in the numeral
  induction n using Nat.strongRecOn with
  | ind n ih =>
      rcases Nat.lt_or_ge n 10 with hlt | hge
      · rw [decimal_of_lt hlt, List.foldlM_cons, scanStep_digit hlt (by simp) (by simpa using hn)
          (fun _ => by rw [Scan.octets, Bool.toNat_false]; exact Nat.succ_le_succ hpast)]
        simp
      · have hmod : n % 10 < 10 := Nat.mod_lt n (by decide)
        have hvalue : n / 10 * 10 + n % 10 = n := by omega
        have hpos : n / 10 ≠ 0 := by omega
        rw [decimal_of_le hge, List.foldlM_append, ih (n / 10) (by omega) (by omega),
          Option.bind_eq_bind, Option.bind_some, List.foldlM_cons,
          scanStep_digit hmod (fun _ => hpos) (by simpa [hvalue] using hn) (by simp)]
        simp [hvalue]

theorem scan_dot {past : List UInt8} (hpast : past.length ≤ 2) (b : UInt8) :
    scanStep { past := past, cur := b.toNat, sawDigit := true } 46
      = some { past := past ++ [b], cur := 0, sawDigit := false } := by
  have hmore : past.length + 1 ≠ 4 := by omega
  have hdot : isDigit 46 = false := by decide
  simp [scanStep, hdot, Scan.octets, hmore]

/-- Scanning a number with its dot, and what follows. -/
theorem scan_octet {past rest : List UInt8} (hpast : past.length ≤ 2) (b : UInt8) :
    (decimal b.toNat ++ 46 :: rest).foldlM scanStep { past := past, cur := 0, sawDigit := false }
      = rest.foldlM scanStep { past := past ++ [b], cur := 0, sawDigit := false } := by
  have hb := b.toNat_lt
  rw [List.foldlM_append, scan_decimal (by omega) b.toNat (by omega), Option.bind_eq_bind,
    Option.bind_some, List.foldlM_cons, scan_dot hpast, Option.bind_eq_bind, Option.bind_some]

theorem inetPton_ntop (a : InAddr) : inetPton (ntop a) = some a := by
  have hb := a.b3.toNat_lt
  rw [inetPton, ntop, scan_octet (by simp), scan_octet (by simp), scan_octet (by simp),
    scan_decimal (by simp) _ (by omega), Option.bind_some]
  simp [Scan.octets, InAddr.ofBytes]

/-- **DOTTED QUADS**: `inet_pton` accepts what `inet_ntop` prints, and nothing else. -/
theorem inetPton_eq_some_iff {src : List UInt8} {a : InAddr} :
    inetPton src = some a ↔ src = ntop a := by
  constructor
  · exact ntop_of_inetPton
  · rintro rfl
    exact inetPton_ntop a

/-! ## The address -/

/-- `AF_INET`. -/
def afInet : Nat := 2

/-- `INET_ADDRSTRLEN`. -/
def inetAddrstrlen : Nat := 16

structure SockaddrIn where
  sinFamily : Nat
  sinPort : Nat
  sinAddr : InAddr
  deriving DecidableEq

/-- The bytes of the structure, with eight of padding. -/
def SockaddrIn.bytes (a : SockaddrIn) : List UInt8 :=
  leBytes 2 a.sinFamily ++ leBytes 2 a.sinPort ++ a.sinAddr.bytes ++ List.replicate 8 0

structure Address where
  addr : SockaddrIn
  deriving DecidableEq

/-- What the member initialiser makes: the family, and zeros. -/
def SockaddrIn.init : SockaddrIn := { sinFamily := afInet, sinPort := 0, sinAddr := ⟨0, 0, 0, 0⟩ }

/-- What the constructor does to `sin_addr`; `ip` is the string at the pointer, if it is
    not null.  A text that is not accepted leaves it as it was. -/
def SockaddrIn.setIp (a : SockaddrIn) (ip : Option (List UInt8)) : InAddr :=
  ip.elim inaddrAny fun text => (inetPton text).getD a.sinAddr

def Address.ofPort (port : UInt16) (ip : Option (List UInt8)) : Address where
  addr :=
    { SockaddrIn.init with
      sinPort := hostToNet16 port.toNat
      sinAddr := SockaddrIn.init.setIp ip }

def Address.ptr (a : Address) : List UInt8 := a.addr.bytes

def Address.len (_ : Address) : Nat := sizeofSockaddrIn

/-- `operator==`. -/
def Address.equal (a b : Address) : Bool :=
  a.addr.sinFamily == b.addr.sinFamily && a.addr.sinAddr == b.addr.sinAddr &&
    a.addr.sinPort == b.addr.sinPort

def Address.toString (a : Address) : Option (List UInt8) :=
  (ofPointer (inetNtop a.addr.sinAddr (List.replicate inetAddrstrlen 0))).map fun text =>
    text ++ 58 :: decimal (netToHost16 a.addr.sinPort)

/-- What the kernel makes of the bytes: the family, the port and the address. -/
def decode (mem : List UInt8) : Option (Nat × Nat × InAddr) :=
  if mem.length < sizeofSockaddrIn then none
  else
    some (leValue (mem.take 2), leValue ((mem.drop 2).take 2).reverse, InAddr.ofBytes (mem.drop 4))

/-! ## Reading it back -/

theorem decimal_octet_length (b : UInt8) : (decimal b.toNat).length ≤ 3 := by
  have hb := b.toNat_lt
  have hshort : ∀ n, n < 10 → (decimal n).length = 1 := fun n hn => by
    rw [decimal_of_lt hn, List.length_singleton]
  have hnext : ∀ n k, (10 ≤ n → (decimal (n / 10)).length ≤ k) → 1 ≤ k →
      (decimal n).length ≤ k + 1 := by
    intro n k hk hpos
    rcases Nat.lt_or_ge n 10 with hlt | hge
    · rw [hshort n hlt]
      exact Nat.le_add_left ..
    · rw [decimal_of_le hge, List.length_append, List.length_singleton]
      exact Nat.succ_le_succ (hk hge)
  refine hnext _ 2 (fun _ => hnext _ 1 (fun _ => ?_) (Nat.le_refl 1)) (by decide)
  exact Nat.le_of_eq (hshort _ (by omega))

theorem decimal_notMem {n : Nat} {c : UInt8} (hc : isDigit c = false) : c ∉ decimal n := by
  intro hmem
  rw [(decimal_spec n).2.1 c hmem] at hc
  cases hc

theorem ntop_notMem {a : InAddr} {c : UInt8} (hc : isDigit c = false) (hdot : c ≠ 46) :
    c ∉ ntop a := by
  simp [ntop, decimal_notMem hc, hdot]

theorem ntop_length (a : InAddr) : (ntop a).length < inetAddrstrlen := by
  have h0 := decimal_octet_length a.b0
  have h1 := decimal_octet_length a.b1
  have h2 := decimal_octet_length a.b2
  have h3 := decimal_octet_length a.b3
  simp only [ntop, inetAddrstrlen, List.length_append, List.length_cons]
  omega

theorem ntop_injective {a b : InAddr} (h : ntop a = ntop b) : a = b := by
  have hread := inetPton_ntop a
  rw [h, inetPton_ntop, Option.some.injEq] at hread
  exact hread.symm

theorem decimal_injective {m n : Nat} (h : decimal m = decimal n) : m = n := by
  rw [← (decimal_spec m).2.2, h, (decimal_spec n).2.2]

/-- The buffer is long enough for every address. -/
theorem toString_eq (a : Address) :
    a.toString = some (ntop a.addr.sinAddr ++ 58 :: decimal (netToHost16 a.addr.sinPort)) := by
  have hlength := ntop_length a.addr.sinAddr
  have hfree : NulFree (ntop a.addr.sinAddr) := ntop_notMem (by decide) (by decide)
  have hbuf : inetNtop a.addr.sinAddr (List.replicate inetAddrstrlen 0)
      = ntop a.addr.sinAddr ++
        List.replicate (inetAddrstrlen - (ntop a.addr.sinAddr).length) 0 := by
    obtain ⟨k, hk⟩ : ∃ k, inetAddrstrlen - (ntop a.addr.sinAddr).length = k + 1 :=
      ⟨_, (Nat.succ_pred_eq_of_pos (Nat.sub_pos_of_lt hlength)).symm⟩
    rw [inetNtop, List.length_replicate, if_pos hlength, List.drop_replicate, hk,
      List.replicate_succ, Nat.sub_add_eq, hk, Nat.add_sub_cancel]
  rw [Address.toString, hbuf, ofPointer_padded hfree (Nat.sub_pos_of_lt hlength), Option.map_some]

theorem port_read_back (port : UInt16) : netToHost16 (hostToNet16 port.toNat) = port.toNat :=
  (host_to_net_order port 0 0).1.2

/-- The kernel finds the family, the port and the four bytes. -/
theorem decode_ofPort (port : UInt16) (ip : Option (List UInt8)) :
    decode ((Address.ofPort port ip).ptr.take (Address.ofPort port ip).len)
      = some (afInet, port.toNat, SockaddrIn.init.setIp ip) := by
  have hport : leValue (leBytes 2 (hostToNet16 port.toNat)).reverse = port.toNat :=
    port_read_back port
  have hfamily : leValue (leBytes 2 afInet) = afInet := leValue_leBytes 2 afInet
  rw [← hport, ← hfamily]
  rfl

theorem toString_ofPort (port : UInt16) (ip : Option (List UInt8)) :
    (Address.ofPort port ip).toString
      = some (ntop (SockaddrIn.init.setIp ip) ++ 58 :: decimal port.toNat) := by
  rw [toString_eq, ← port_read_back port]
  rfl

theorem toString_inj {port port' : UInt16} {ip ip' : Option (List UInt8)} :
    (Address.ofPort port ip).toString = (Address.ofPort port' ip').toString ↔
      SockaddrIn.init.setIp ip = SockaddrIn.init.setIp ip' ∧ port = port' := by
  have hcolon : isDigit 58 = false := by decide
  rw [toString_ofPort, toString_ofPort, Option.some.injEq,
    List.append_cons_inj_of_notMem (ntop_notMem hcolon (by decide)) (decimal_notMem hcolon)]
  constructor
  · rintro ⟨hip, -, hport⟩
    exact ⟨ntop_injective hip, UInt16.toNat_inj.mp (decimal_injective hport)⟩
  · rintro ⟨hip, rfl⟩
    exact ⟨by rw [hip], rfl, rfl⟩

theorem equal_ofPort {port port' : UInt16} {ip ip' : Option (List UInt8)} :
    (Address.ofPort port ip).equal (Address.ofPort port' ip') = true ↔
      SockaddrIn.init.setIp ip = SockaddrIn.init.setIp ip' ∧ port = port' := by
  have hport : hostToNet16 port.toNat = hostToNet16 port'.toNat ↔ port = port' := by
    constructor
    · intro h
      refine UInt16.toNat_inj.mp ?_
      rw [← port_read_back port, h, port_read_back]
    · rintro rfl
      rfl
  simp only [Address.equal, Address.ofPort, SockaddrIn.init, Bool.and_eq_true, beq_iff_eq, hport,
    true_and]

/-- **ADDRESSES ARE READ BACK**: from a port and a dotted quad the kernel is given this port
    and these four bytes, and `to_string` gives the quad and the port again; any other text
    makes the address of all interfaces; and `operator==` holds of two addresses exactly if
    they are printed alike, exactly if the kernel is given the same. -/
theorem inet_address_lossless (port port' : UInt16) (text text' : List UInt8) :
    (∀ q, text = ntop q →
        decode ((Address.ofPort port (some text)).ptr.take sizeofSockaddrIn)
          = some (afInet, port.toNat, q) ∧
        (Address.ofPort port (some text)).toString = some (text ++ 58 :: decimal port.toNat)) ∧
      ((∀ q, text ≠ ntop q) → Address.ofPort port (some text) = Address.ofPort port none) ∧
      ((Address.ofPort port (some text)).equal (Address.ofPort port' (some text')) = true ↔
        (Address.ofPort port (some text)).toString
          = (Address.ofPort port' (some text')).toString) ∧
      ((Address.ofPort port (some text)).equal (Address.ofPort port' (some text')) = true ↔
        decode ((Address.ofPort port (some text)).ptr.take sizeofSockaddrIn)
          = decode ((Address.ofPort port' (some text')).ptr.take sizeofSockaddrIn)) := by
  have hdecode := decode_ofPort port (some text)
  have hdecode' := decode_ofPort port' (some text')
  rw [Address.len] at hdecode hdecode'
  refine ⟨?_, ?_, equal_ofPort.trans toString_inj.symm, ?_⟩
  · rintro q rfl
    have hread : SockaddrIn.init.setIp (some (ntop q)) = q := by
      rw [SockaddrIn.setIp, Option.elim_some, inetPton_ntop, Option.getD_some]
    rw [hdecode, toString_ofPort, hread]
    exact ⟨rfl, rfl⟩
  · intro hno
    have hnone : inetPton text = none := by
      refine Option.eq_none_iff_forall_ne_some.mpr ?_
      intro q hq
      exact hno q (inetPton_eq_some_iff.mp hq)
    rw [Address.ofPort, Address.ofPort, SockaddrIn.setIp, Option.elim_some, hnone]
    rfl
  · rw [equal_ofPort, hdecode, hdecode', Option.some.injEq, Prod.mk.injEq, Prod.mk.injEq,
      UInt16.toNat_inj]
    constructor
    · exact fun h => ⟨rfl, h.2, h.1⟩
    · exact fun h => ⟨h.2.2, h.2.1⟩

/-- `127.0.0.01` is all interfaces. -/
example : Address.ofPort 8888 (some [49, 50, 55, 46, 48, 46, 48, 46, 48, 49])
    = Address.ofPort 8888 none := by
  decide +kernel

end CoioInetAddress
