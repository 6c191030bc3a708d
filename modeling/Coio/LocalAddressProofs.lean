import Coio.CStringProofs
import Mathlib.Data.List.TakeDrop

/-! # `iplocal::address` — a path in a `sockaddr_un`, handed over with another type's length

    The constructor copies the path into `sun_path` (108 characters, the rest zero),
    `to_string` and `operator==` read it back up to its NUL.  `bind` and `connect`
    hand the kernel `ptr()` and `len()`, and `len()` is `sizeof(sockaddr_in)`: two
    bytes of family and fourteen of the path, whatever its length.

    `decode` is what the kernel makes of the bytes it is given.  It finds the path
    exactly if the path has at most fourteen bytes; of a longer one it finds the
    first fourteen, so paths that only differ behind them denote one socket. -/

namespace CoioLocalAddress

open CoioCString

/-! ## The address -/

/-- `AF_LOCAL`. -/
def afLocal : UInt16 := 1

/-- `sizeof(sun_path)`. -/
def sunPathSize : Nat := 108

/-- `sizeof(sockaddr_in)`: family, port, address and eight bytes of padding. -/
def sizeofSockaddrIn : Nat := 2 + 2 + 4 + 8

structure SockaddrUn where
  sunFamily : UInt16
  sunPath : List UInt8
  length_sunPath : sunPath.length = sunPathSize

/-- The bytes of the structure; the family is in the host's order, which is little endian. -/
def SockaddrUn.bytes (a : SockaddrUn) : List UInt8 :=
  a.sunFamily.toUInt8 :: (a.sunFamily >>> 8).toUInt8 :: a.sunPath

structure Address where
  addr : SockaddrUn

/-- What the member initialiser makes: the family, and zeros. -/
def SockaddrUn.init : SockaddrUn where
  sunFamily := afLocal
  sunPath := List.replicate sunPathSize 0
  length_sunPath := List.length_replicate

theorem length_strncpy {dst : List UInt8} (src : List UInt8) {n : Nat} (h : dst.length = n) :
    (strncpy dst src n).length = n := by
  simp only [strncpy, List.length_append, List.length_take, List.length_replicate,
    List.length_drop]
  omega

/-- The constructor; `path` is the memory at the pointer. -/
def Address.ofPath (path : List UInt8) : Address where
  addr :=
    { SockaddrUn.init with
      sunPath := strncpy SockaddrUn.init.sunPath path sunPathSize
      length_sunPath := length_strncpy path SockaddrUn.init.length_sunPath }

def Address.ptr (a : Address) : List UInt8 := a.addr.bytes

def Address.len (_ : Address) : Nat := sizeofSockaddrIn

/-- `operator==`. -/
def Address.equal (a b : Address) : Option Bool :=
  (strcmp a.addr.sunPath b.addr.sunPath).map (· == 0)

def Address.toString (a : Address) : Option (List UInt8) := ofPointer a.addr.sunPath

/-! ## What the kernel is given -/

inductive Request where
  | bind
  | connect
  deriving DecidableEq

/-- A request to the kernel, with the bytes it reads at the pointer. -/
structure Call where
  request : Request
  fd : Int
  addr : List UInt8
  deriving DecidableEq

structure Socket where
  fd : Int
  mAddr : Address

def bindCall (s : Socket) (a : Address) : Call := ⟨.bind, s.fd, a.ptr.take a.len⟩

/-- `socket_base::bind`; the kernel answers with an error number, or zero. -/
def bind (kernel : Call → Int) (s : Socket) (a : Address) : Except Int Socket :=
  if kernel (bindCall s a) ≠ 0 then .error (kernel (bindCall s a)) else .ok { s with mAddr := a }

/-- The entry that `connector::connect` prepares. -/
def connectCall (s : Socket) (a : Address) : Call := ⟨.connect, s.fd, a.ptr.take a.len⟩

/-- `connector::connect`; the completion carries a negative error number, or zero. -/
def connect (kernel : Call → Int) (s : Socket) (a : Address) : Except Int Unit :=
  if kernel (connectCall s a) < 0 then .error (-kernel (connectCall s a)) else .ok ()

/-- The family, then the path up to its NUL or to the end of the bytes. -/
def decode : List UInt8 → Option (UInt16 × List UInt8)
  | lo :: hi :: path => some (lo.toUInt16 ||| (hi.toUInt16 <<< 8), chars path)
  | _ => none

/-! ## What is left of a path -/

section Path

variable {p q : List UInt8}

theorem ofPath_sunPath (hp : NulFree p) (hlen : p.length < sunPathSize) :
    (Address.ofPath p).addr.sunPath = p ++ List.replicate (sunPathSize - p.length) 0 :=
  strncpy_of_le hp (Nat.le_of_lt hlen) List.length_replicate

/-- `to_string` reads back the whole path. -/
theorem toString_ofPath (hp : NulFree p) (hlen : p.length < sunPathSize) :
    (Address.ofPath p).toString = some p := by
  unfold Address.toString
  rw [ofPath_sunPath hp hlen]
  exact ofPointer_padded hp (Nat.sub_pos_of_lt hlen)

/-- `operator==` compares the whole paths. -/
theorem equal_ofPath (hp : NulFree p) (hq : NulFree q) (hplen : p.length < sunPathSize)
    (hqlen : q.length < sunPathSize) :
    (Address.ofPath p).equal (Address.ofPath q) = some true ↔ p = q := by
  obtain ⟨r, hr, hzero⟩ := strcmp_padded hp hq (Nat.sub_pos_of_lt hplen) (Nat.sub_pos_of_lt hqlen)
  unfold Address.equal
  rw [ofPath_sunPath hp hplen, ofPath_sunPath hq hqlen, hr, ← hzero]
  simp

/-- The bytes that the kernel reads: the family, and fourteen of the path. -/
theorem handed_eq (hp : NulFree p) (hlen : p.length < sunPathSize) :
    (Address.ofPath p).ptr.take (Address.ofPath p).len
      = afLocal.toUInt8 :: (afLocal >>> 8).toUInt8 ::
        (p.take 14 ++ List.replicate (14 - p.length) 0) := by
  have htake : ((Address.ofPath p).addr.sunPath).take 14
      = p.take 14 ++ List.replicate (14 - p.length) 0 := by
    have hmin : min (14 - p.length) (sunPathSize - p.length) = 14 - p.length :=
      Nat.min_eq_left (Nat.sub_le_sub_right (by decide) _)
    rw [ofPath_sunPath hp hlen, List.take_append, List.take_replicate, hmin]
  rw [← htake]
  rfl

/-- The kernel finds the family and the first fourteen bytes. -/
theorem decode_handed (hp : NulFree p) (hlen : p.length < sunPathSize) :
    decode ((Address.ofPath p).ptr.take (Address.ofPath p).len)
      = some (afLocal, p.take 14) := by
  have hfamily : (afLocal.toUInt8.toUInt16 ||| ((afLocal >>> 8).toUInt8.toUInt16 <<< 8))
      = afLocal := by decide
  rw [handed_eq hp hlen]
  unfold decode
  dsimp only
  rw [chars_padded (hp.take 14), hfamily]

/-- A socket that is bound says it has the whole path; the kernel was told the first
    fourteen bytes of it. -/
theorem bind_told {kernel : Call → Int} {s s' : Socket} (hp : NulFree p)
    (hlen : p.length < sunPathSize) (hbind : bind kernel s (Address.ofPath p) = .ok s') :
    s'.mAddr.toString = some p ∧
      decode (bindCall s (Address.ofPath p)).addr = some (afLocal, p.take 14) := by
  refine ⟨?_, decode_handed hp hlen⟩
  unfold bind at hbind
  split at hbind
  · cases hbind
  · rw [← Except.ok.inj hbind]
    exact toString_ofPath hp hlen

/-- Paths that agree in their first fourteen bytes are connected to alike, by every
    kernel. -/
theorem connect_congr (kernel : Call → Int) (s : Socket) (hp : NulFree p) (hq : NulFree q)
    (hplen : p.length < sunPathSize) (hqlen : q.length < sunPathSize)
    (h : p.take 14 = q.take 14) :
    connect kernel s (Address.ofPath p) = connect kernel s (Address.ofPath q) := by
  have hpad : 14 - p.length = 14 - q.length := by
    have hlength := congrArg List.length h
    rw [List.length_take, List.length_take] at hlength
    omega
  have hcall : connectCall s (Address.ofPath p) = connectCall s (Address.ofPath q) := by
    unfold connectCall
    rw [handed_eq hp hplen, handed_eq hq hqlen, h, hpad]
  unfold connect
  rw [hcall]

/-- **FOURTEEN BYTES OF A PATH**: for every path that `sun_path` can hold, `to_string`
    gives the path; the kernel finds it in the bytes it is handed exactly if it has at
    most fourteen bytes; and `operator==` agrees with the kernel on two paths exactly if
    they are equal or differ within their first fourteen bytes. -/
theorem local_address_lossless_iff (s t : Socket) (p q : List UInt8) (hp : NulFree p)
    (hq : NulFree q) (hplen : p.length < sunPathSize) (hqlen : q.length < sunPathSize) :
    (Address.ofPath p).toString = some p ∧
      (decode ((Address.ofPath p).ptr.take (Address.ofPath p).len) = some (afLocal, p) ↔
        p.length ≤ 14) ∧
      (((Address.ofPath p).equal (Address.ofPath q) = some true ↔
          decode (bindCall s (Address.ofPath p)).addr
            = decode (connectCall t (Address.ofPath q)).addr) ↔
        p = q ∨ p.take 14 ≠ q.take 14) := by
  have hdecode : decode (bindCall s (Address.ofPath p)).addr
      = decode (connectCall t (Address.ofPath q)).addr ↔ p.take 14 = q.take 14 := by
    have hbind : decode (bindCall s (Address.ofPath p)).addr = _ := decode_handed hp hplen
    have hconnect : decode (connectCall t (Address.ofPath q)).addr = _ := decode_handed hq hqlen
    rw [hbind, hconnect, Option.some.injEq, Prod.mk.injEq, and_iff_right rfl]
  refine ⟨toString_ofPath hp hplen, ?_, ?_⟩
  · rw [decode_handed hp hplen, Option.some.injEq, Prod.mk.injEq, and_iff_right rfl]
    exact List.take_eq_self_iff p
  · rw [equal_ofPath hp hq hplen hqlen, hdecode]
    constructor
    · intro h
      by_cases hpq : p = q
      · exact .inl hpq
      · exact .inr (fun htake => hpq (h.mpr htake))
    · rintro (rfl | hne)
      · exact iff_of_true rfl rfl
      · exact iff_of_false (fun hpq => hne (hpq ▸ rfl)) hne

end Path

/-! ## Paths of fourteen and of fifteen bytes -/

/-- `/tmp/coio.sock`. -/
def coioSock : List UInt8 := [47, 116, 109, 112, 47, 99, 111, 105, 111, 46, 115, 111, 99, 107]

def unbound : Socket := ⟨3, Address.ofPath []⟩

/-- The theorem at a path of fourteen bytes and one of thirteen. -/
theorem local_address_lossless_iff_coioSock :
    decode ((Address.ofPath coioSock).ptr.take (Address.ofPath coioSock).len)
        = some (afLocal, coioSock) ∧
      ((Address.ofPath coioSock).equal (Address.ofPath (coioSock.take 13)) = some true ↔
        decode (bindCall unbound (Address.ofPath coioSock)).addr
          = decode (connectCall unbound (Address.ofPath (coioSock.take 13))).addr) := by
  obtain ⟨-, hdecode, hequal⟩ := local_address_lossless_iff unbound unbound coioSock
    (coioSock.take 13) (by decide) (by decide) (by decide) (by decide)
  exact ⟨hdecode.mpr (by decide), hequal.mpr (.inr (by decide))⟩

/-- `/tmp/coio.sock1` and `/tmp/coio.sock2` compare different, and the kernel is told
    `/tmp/coio.sock` for both. -/
theorem two_paths_one_socket :
    (Address.ofPath (coioSock ++ [49])).equal (Address.ofPath (coioSock ++ [50]))
        = some false ∧
      decode (bindCall unbound (Address.ofPath (coioSock ++ [49]))).addr
        = some (afLocal, coioSock) ∧
      decode (connectCall unbound (Address.ofPath (coioSock ++ [50]))).addr
        = some (afLocal, coioSock) := by
  decide +kernel

end CoioLocalAddress
