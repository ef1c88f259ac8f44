import Xfnet.Foundations.Decimal

/-!
# `Address`

The union of a `sockaddr_in` and a `sockaddr_in6`, and its constructors. The two share the family,
the port and the four bytes after it, which are the address of the one and the flow information of
the other. What a constructor does not set is what was in memory before.

Of libc, the dotted text of an IPv4 address is written out here. The texts of the IPv6 addresses are
a parameter, of which only the colon is known.
-/

namespace Xfnet

/-- A dotted address. -/
structure Ipv4 where
  a : BitVec 8
  b : BitVec 8
  c : BitVec 8
  d : BitVec 8
  deriving DecidableEq

/-- The two halves of an `in6_addr`. -/
structure Ipv6 where
  high : BitVec 64
  low : BitVec 64
  deriving DecidableEq

def Ipv4.octets (ip : Ipv4) : List ℕ := [ip.a.toNat, ip.b.toNat, ip.c.toNat, ip.d.toNat]

def Ipv4.dotted (ip : Ipv4) : List Char := Decimal.row '.' ip.octets

/-- `inet_pton` for `AF_INET`. -/
def inetPton4 (text : List Char) : Option Ipv4 :=
  match Decimal.readRow '.' text with
  | some [a, b, c, d] =>
    if a < 256 ∧ b < 256 ∧ c < 256 ∧ d < 256 then
      some ⟨.ofNat 8 a, .ofNat 8 b, .ofNat 8 c, .ofNat 8 d⟩
    else none
  | _ => none

/-- `inet_pton` and the text of `inet_ntop` for `AF_INET6`. -/
structure Inet6 where
  pton : List Char → Option Ipv6
  ntop : Ipv6 → List Char
  colon : ∀ text ip, pton text = some ip → ':' ∈ text

/-! ## Ports -/

/-- The two bytes of a port in the other order. -/
def htons (port : BitVec 16) : BitVec 16 := .ofNat 16 (port.toNat % 256 * 256 + port.toNat / 256)

def ntohs (port : BitVec 16) : BitVec 16 := htons port

theorem toNat_htons (port : BitVec 16) :
    (htons port).toNat = port.toNat % 256 * 256 + port.toNat / 256 := by
  have hport : port.toNat < 65536 := port.isLt
  rw [htons, BitVec.toNat_ofNat]
  exact Nat.mod_eq_of_lt (by omega)

@[simp] theorem ntohs_htons (port : BitVec 16) : ntohs (htons port) = port := by
  apply BitVec.eq_of_toNat_eq
  rw [ntohs, toNat_htons, toNat_htons]
  omega

/-! ## The union -/

def afInet : BitVec 16 := 2

def afInet6 : BitVec 16 := 10

/-- `family` and `port` stand for the first two members of both structures, `word` for `sin_addr`
and `sin6_flowinfo`, and `addr6` for `sin6_addr`, whose first half is `sin_zero`. -/
structure Address where
  family : BitVec 16
  port : BitVec 16
  word : Ipv4
  addr6 : Ipv6
  scope : BitVec 32
  deriving DecidableEq

namespace Address

/-- `Address(const char* ip, uint16_t port)`. A text that is not well formed stores no address. -/
def ofText (inet6 : Inet6) (ip : List Char) (port : BitVec 16) (raw : Address) : Address :=
  if ':' ∉ ip then
    let addr : Address :=
      { raw with family := afInet, port := htons port, word := ⟨0, 0, 0, 0⟩, addr6.high := 0 }
    match inetPton4 ip with
    | some sinAddr => { addr with word := sinAddr }
    | none => addr
  else
    let addr : Address := ⟨afInet, htons port, ⟨0, 0, 0, 0⟩, ⟨0, 0⟩, 0⟩
    match inet6.pton ip with
    | some sin6Addr => { addr with addr6 := sin6Addr }
    | none => addr

/-- `Address(uint16_t port, int family)`. -/
def ofPort (port : BitVec 16) (family : BitVec 32) (raw : Address) : Address :=
  if family = afInet.setWidth 32 then
    { raw with family := family.setWidth 16, port := htons port, word := ⟨0, 0, 0, 0⟩ }
  else
    { raw with family := family.setWidth 16, port := htons port, addr6 := ⟨0, 0⟩ }

/-- `Family()`. -/
def getFamily (addr : Address) : BitVec 32 := addr.family.setWidth 32

/-- `Port()`. -/
def getPort (addr : Address) : BitVec 16 := ntohs addr.port

end Address

/-! ## Dotted texts -/

section Dotted

variable {ip : Ipv4} {text : List Char}

/-- **A dotted text is read from its address only.** -/
theorem inetPton4_eq_some_iff : inetPton4 text = some ip ↔ text = ip.dotted := by
  have hrow (ns : List ℕ) (hns : ns ≠ []) :
      Decimal.readRow '.' text = some ns ↔ text = Decimal.row '.' ns :=
    Decimal.readRow_eq_some_iff (by decide) hns
  constructor
  · intro h
    unfold inetPton4 at h
    split at h
    · next a b c d hread =>
      obtain ⟨⟨ha, hb, hc, hd⟩, he⟩ := Option.ite_none_right_eq_some.mp h
      cases he
      rw [(hrow _ (by simp)).mp hread, Ipv4.dotted, Ipv4.octets]
      simp only [BitVec.toNat_ofNat, Nat.mod_eq_of_lt ha, Nat.mod_eq_of_lt hb, Nat.mod_eq_of_lt hc,
        Nat.mod_eq_of_lt hd]
    · cases h
  · rintro rfl
    have hread : Decimal.readRow '.' ip.dotted = some ip.octets :=
      (Decimal.readRow_eq_some_iff (by decide) (by simp [Ipv4.octets])).mpr rfl
    simp only [inetPton4, hread, Ipv4.octets]
    rw [if_pos ⟨ip.a.isLt, ip.b.isLt, ip.c.isLt, ip.d.isLt⟩]
    simp

theorem colon_not_mem_dotted (ip : Ipv4) : ':' ∉ ip.dotted :=
  Decimal.not_mem_row (by decide) (by decide)

/-- The constructor stores the address of a dotted text. -/
theorem ofText_dotted (inet6 : Inet6) (ip : Ipv4) (port : BitVec 16) (raw : Address) :
    Address.ofText inet6 ip.dotted port raw =
      { raw with family := afInet, port := htons port, word := ip, addr6.high := 0 } := by
  simp only [Address.ofText, if_pos (colon_not_mem_dotted ip), inetPton4_eq_some_iff.mpr rfl]

/-- Every octet has one digit at least. -/
theorem length_dotted : ip.dotted.length = (Decimal.text ip.a.toNat).length +
    (Decimal.text ip.b.toNat).length + (Decimal.text ip.c.toNat).length +
    (Decimal.text ip.d.toNat).length + 3 := by
  simp only [Ipv4.dotted, Ipv4.octets, Decimal.row_cons, Decimal.row_singleton, List.length_append,
    List.length_cons]
  omega

end Dotted

end Xfnet
