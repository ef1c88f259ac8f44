import Xfnet.Address.Sockaddr
import Xfnet.Kernel

/-!
# The family of an `Address`

The family is chosen three times: by the constructor, by `Connector::Connect`, which opens a socket
of the family of the address, and by `Acceptor::Open`, whose default is `AF_INET`. The kernel reads
an address by its family, and the constructor from a text puts `AF_INET` for an IPv6 address too. So
the kernel takes the flow information for an IPv4 address, which is `0.0.0.0`.
-/

namespace Xfnet

/-- `AF_INET` as an `int`. -/
def inet : BitVec 32 := afInet.setWidth 32

def sizeofSockaddrIn : ℕ := 16

def sizeofSockaddrIn6 : ℕ := 28

/-- `Size()`, the same for every family. -/
def Address.size (_ : Address) : ℕ := sizeofSockaddrIn6

/-- What an address stands for. -/
inductive Endpoint
  | ipv4 (ip : Ipv4) (port : BitVec 16)
  | ipv6 (ip : Ipv6) (port : BitVec 16)
  deriving DecidableEq

def Endpoint.family : Endpoint → BitVec 32
  | ipv4 .. => inet
  | ipv6 .. => afInet6.setWidth 32

/-- An address as the kernel reads it, by its family and its size. -/
def Address.decode (addr : Address) (size : ℕ) : Option Endpoint :=
  if addr.family = afInet ∧ sizeofSockaddrIn ≤ size then
    some (.ipv4 addr.word (ntohs addr.port))
  else if addr.family = afInet6 ∧ sizeofSockaddrIn6 ≤ size then
    some (.ipv6 addr.addr6 (ntohs addr.port))
  else none

/-! ## What is passed to the kernel -/

/-- The family of the socket, and the arguments of `connect` or `bind` on it. -/
structure SocketCall where
  family : BitVec 32
  addr : Address
  size : ℕ

/-- `Connector::Connect`. -/
def Connector.connectCall (addr : Address) : SocketCall := ⟨addr.getFamily, addr, addr.size⟩

/-- `Acceptor::Open`. -/
def Acceptor.openCall (addr : Address) (family : BitVec 32) : SocketCall :=
  ⟨family, addr, addr.size⟩

/-- `TcpServer::Start`, which leaves the family to its default. -/
def TcpServer.startCall (addr : Address) : SocketCall := Acceptor.openCall addr inet

/-- The kernel reads the endpoint, on a socket of its family. -/
structure SocketCall.Denotes (call : SocketCall) (endpoint : Endpoint) : Prop where
  decode : call.addr.decode call.size = some endpoint
  family : call.family = endpoint.family

/-! ## What a constructor is given -/

/-- A text, or a family whose any-address is meant. -/
inductive Given
  | text (ip : List Char)
  | any (family : BitVec 32)

namespace Given

/-- The endpoint that is meant, where the text is well formed, or the family one of the two. -/
def endpoint (inet6 : Inet6) (port : BitVec 16) : Given → Option Endpoint
  | text ip =>
    match inetPton4 ip with
    | some sinAddr => some (.ipv4 sinAddr port)
    | none => (inet6.pton ip).map fun sin6Addr => .ipv6 sin6Addr port
  | any family =>
    if family = inet then some (.ipv4 ⟨0, 0, 0, 0⟩ port)
    else if family = afInet6.setWidth 32 then some (.ipv6 ⟨0, 0⟩ port)
    else none

def address (inet6 : Inet6) (port : BitVec 16) (raw : Address) : Given → Address
  | text ip => .ofText inet6 ip port raw
  | any family => .ofPort port family raw

end Given

section

variable {inet6 : Inet6} {port : BitVec 16} {raw : Address} {given : Given} {endpoint : Endpoint}

/-- The constructor puts `AF_INET` with an IPv6 address. -/
theorem ofText_ipv6 {ip : List Char} {sin6Addr : Ipv6} (h : inet6.pton ip = some sin6Addr) :
    Address.ofText inet6 ip port raw = ⟨afInet, htons port, ⟨0, 0, 0, 0⟩, sin6Addr, 0⟩ := by
  have hcolon := inet6.colon ip sin6Addr h
  simp only [Address.ofText, hcolon, not_true_eq_false, if_false, h]

theorem decode_of_inet {addr : Address} (h : addr.family = afInet) :
    addr.decode addr.size = some (.ipv4 addr.word (ntohs addr.port)) :=
  if_pos ⟨h, (by decide : sizeofSockaddrIn ≤ sizeofSockaddrIn6)⟩

theorem decode_of_inet6 {addr : Address} (h : addr.family = afInet6) :
    addr.decode addr.size = some (.ipv6 addr.addr6 (ntohs addr.port)) := by
  rw [Address.decode, if_neg (fun hinet => absurd (h.symm.trans hinet.1) (by decide))]
  exact if_pos ⟨h, le_refl sizeofSockaddrIn6⟩

/-- **An IPv4 address**, from a text or the default family. -/
theorem denotes_ipv4 (h : given.endpoint inet6 port = some endpoint)
    (hfamily : endpoint.family = inet) (raw : Address) :
    (given.address inet6 port raw).family = afInet ∧
      (given.address inet6 port raw).decode (given.address inet6 port raw).size =
        some endpoint := by
  have hne : afInet6.setWidth 32 ≠ inet := by decide
  cases given with
  | text ip =>
    simp only [Given.endpoint] at h
    split at h
    · next sinAddr hpton =>
      cases h
      obtain rfl := inetPton4_eq_some_iff.mp hpton
      simp only [Given.address, ofText_dotted]
      refine ⟨trivial, ?_⟩
      rw [decode_of_inet rfl, ntohs_htons]
    · obtain ⟨sin6Addr, -, rfl⟩ := Option.map_eq_some_iff.mp h
      exact absurd hfamily hne
  | any family =>
    simp only [Given.endpoint] at h
    split_ifs at h with hinet hinet6
    · cases h
      subst hinet
      have haddr : Address.ofPort port inet raw =
          { raw with family := afInet, port := htons port, word := ⟨0, 0, 0, 0⟩ } := if_pos rfl
      simp only [Given.address, haddr]
      refine ⟨trivial, ?_⟩
      rw [decode_of_inet rfl, ntohs_htons]
    · cases h
      exact absurd hfamily hne

/-- **The IPv6 any-address.** -/
theorem denotes_any6 {family : BitVec 32}
    (h : (Given.any family).endpoint inet6 port = some endpoint)
    (hfamily : endpoint.family ≠ inet) (raw : Address) :
    (Address.ofPort port family raw).getFamily = endpoint.family ∧
      (Address.ofPort port family raw).decode (Address.ofPort port family raw).size =
        some endpoint := by
  simp only [Given.endpoint] at h
  split_ifs at h with hinet hinet6
  · cases h
    exact absurd rfl hfamily
  · cases h
    subst hinet6
    have haddr : Address.ofPort port (afInet6.setWidth 32) raw =
        { raw with family := afInet6, port := htons port, addr6 := ⟨0, 0⟩ } := if_neg (by decide)
    rw [haddr]
    refine ⟨rfl, ?_⟩
    rw [decode_of_inet6 rfl, ntohs_htons]

/-- **An IPv6 text** is read as `0.0.0.0`. -/
theorem decode_ipv6_text {ip : List Char} (h : (Given.text ip).endpoint inet6 port = some endpoint)
    (hfamily : endpoint.family ≠ inet) (raw : Address) :
    (Address.ofText inet6 ip port raw).decode (Address.ofText inet6 ip port raw).size =
      some (.ipv4 ⟨0, 0, 0, 0⟩ port) := by
  simp only [Given.endpoint] at h
  split at h
  · cases h
    exact absurd rfl hfamily
  · obtain ⟨sin6Addr, hpton, -⟩ := Option.map_eq_some_iff.mp h
    rw [ofText_ipv6 hpton, decode_of_inet rfl, ntohs_htons]

/-- **Where the kernel gets what was given**: an IPv4 address always, the IPv6 any-address from
`Connect`, and no other IPv6 address. -/
theorem family_faithful_iff (h : given.endpoint inet6 port = some endpoint) (raw : Address) :
    ((Connector.connectCall (given.address inet6 port raw)).Denotes endpoint ↔
        endpoint.family = inet ∨ ∃ family, given = .any family) ∧
      ((TcpServer.startCall (given.address inet6 port raw)).Denotes endpoint ↔
        endpoint.family = inet) := by
  refine ⟨⟨fun hd => ?_, fun hor => ?_⟩, fun hd => hd.family.symm, fun hfamily => ?_⟩
  · by_contra hnot
    obtain ⟨hfamily, hany⟩ := not_or.mp hnot
    cases given with
    | text ip =>
      have hread := (decode_ipv6_text h hfamily raw).symm.trans hd.decode
      cases hread
      exact hfamily rfl
    | any family => exact hany ⟨family, rfl⟩
  · by_cases hfamily : endpoint.family = inet
    · obtain ⟨hinet, hdecode⟩ := denotes_ipv4 h hfamily raw
      refine ⟨hdecode, ?_⟩
      rw [hfamily]
      exact congrArg (BitVec.setWidth 32) hinet
    · obtain ⟨family, rfl⟩ := hor.resolve_left hfamily
      obtain ⟨hopen, hdecode⟩ := denotes_any6 h hfamily raw
      exact ⟨hdecode, hopen⟩
  · exact ⟨(denotes_ipv4 h hfamily raw).2, hfamily.symm⟩

end

/-- The text `::1`, as libc reads and writes it. -/
def loopback6 : Inet6 where
  pton text := if text = [':', ':', '1'] then some ⟨0, 1⟩ else none
  ntop _ := [':', ':', '1']
  colon text ip h := by
    obtain ⟨rfl, -⟩ := Option.ite_none_right_eq_some.mp h
    decide

/-- The IPv6 any-address can be connected to, and not be listened on. -/
theorem family_faithful_any6 :
    (Connector.connectCall (.ofPort 80 10 ⟨0, 0, ⟨9, 9, 9, 9⟩, ⟨9, 9⟩, 9⟩)).Denotes
        (.ipv6 ⟨0, 0⟩ 80) ∧
      ¬(TcpServer.startCall (.ofPort 80 10 ⟨0, 0, ⟨9, 9, 9, 9⟩, ⟨9, 9⟩, 9⟩)).Denotes
        (.ipv6 ⟨0, 0⟩ 80) := by
  have hgiven : (Given.any 10).endpoint loopback6 80 = some (.ipv6 ⟨0, 0⟩ 80) := by decide
  have hiff := family_faithful_iff hgiven ⟨0, 0, ⟨9, 9, 9, 9⟩, ⟨9, 9⟩, 9⟩
  exact ⟨hiff.1.mpr (.inr ⟨10, rfl⟩), fun hd => absurd (hiff.2.mp hd) (by decide)⟩

/-- `::1` is connected to as `0.0.0.0`. -/
theorem loopback_misread : ¬∀ (inet6 : Inet6) (given : Given) (port : BitVec 16) (raw : Address)
    (endpoint : Endpoint), given.endpoint inet6 port = some endpoint →
      (Connector.connectCall (given.address inet6 port raw)).Denotes endpoint := by
  intro h
  have hdecode := (h loopback6 (.text [':', ':', '1']) 80 ⟨0, 0, ⟨0, 0, 0, 0⟩, ⟨0, 0⟩, 0⟩
    (.ipv6 ⟨0, 1⟩ 80) (by decide)).decode
  revert hdecode
  decide

end Xfnet
