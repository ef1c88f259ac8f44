import Xfnet.Address.Sockaddr
import Xfnet.Kernel

/-!
# The text of an `Address`

`GetIP` passes `sizeof(ip)` to `inet_ntop`, where `ip` is declared as an array of `MAX_IP_LEN`
characters. But an array parameter is a pointer, so the text has to fit in the size of a pointer,
and only addresses of four digits do. `ToString` does not look at the result of `GetIP`, and prints
the others as an empty text with their port.
-/

namespace Xfnet

/-- `sizeof(ip)` of the parameter `char ip[MAX_IP_LEN]`. -/
def sizeofPointer : ℕ := 8

/-- `MAX_ADDR_LEN`. -/
def maxAddrLen : ℕ := 56

/-- `inet_ntop` with the text it would write: it fails when text and terminator do not fit. -/
def inetNtop (text : List Char) (size : ℕ) : Option (List Char) :=
  if text.length + 1 ≤ size then some text else none

/-- `snprintf`, which cuts the text off where the buffer ends. -/
def snprintf (size : ℕ) (text : List Char) : List Char := text.take (size - 1)

namespace Address

/-- `GetIP`: the result, and the text in `ip`. -/
def getIP (inet6 : Inet6) (addr : Address) : Bool × List Char :=
  let text := if addr.family = afInet then addr.word.dotted else inet6.ntop addr.addr6
  match inetNtop text sizeofPointer with
  | some ip => (true, ip)
  | none => (false, [])

/-- `ToString`: the result, and the text in `addr`. -/
def toString (inet6 : Inet6) (addr : Address) : Bool × List Char :=
  let ip := (addr.getIP inet6).2
  let port := Decimal.text addr.getPort.toNat
  if addr.family = afInet then (true, snprintf maxAddrLen (ip ++ ':' :: port))
  else (true, snprintf maxAddrLen ('[' :: ip ++ ']' :: ':' :: port))

end Address

/-- The address and port of a text `a.b.c.d:port`. -/
def readEndpoint (text : List Char) : Option (Ipv4 × BitVec 16) :=
  match text.splitOn ':' with
  | [ip, port] => do
    let ip ← inetPton4 ip
    let port ← Decimal.read port
    if port < 65536 then some (ip, .ofNat 16 port) else none
  | _ => none

/-- The text of an address and port. -/
def endpointText (ip : Ipv4) (port : BitVec 16) : List Char :=
  ip.dotted ++ ':' :: Decimal.text port.toNat

/-- The address answers with the text and port it was built from, and its text can be read. -/
structure Address.Tells (inet6 : Inet6) (ip : Ipv4) (port : BitVec 16) (addr : Address) : Prop where
  getIP : addr.getIP inet6 = (true, ip.dotted)
  getPort : addr.getPort = port
  toString : addr.toString inet6 = (true, endpointText ip port)
  read : readEndpoint (addr.toString inet6).2 = some (ip, port)

section

variable {inet6 : Inet6} {ip : Ipv4} {port : BitVec 16} {raw : Address}

theorem readEndpoint_endpointText : readEndpoint (endpointText ip port) = some (ip, port) := by
  have hsplit : (endpointText ip port).splitOn ':' = [ip.dotted, Decimal.text port.toNat] := by
    have htext : endpointText ip port = [':'].intercalate [ip.dotted, Decimal.text port.toNat] := by
      simp [endpointText, List.intercalate_cons_cons]
    rw [htext]
    refine List.splitOn_intercalate ':' (fun text hmem => ?_) (by simp)
    obtain rfl | rfl : text = ip.dotted ∨ text = Decimal.text port.toNat := by simpa using hmem
    · exact colon_not_mem_dotted ip
    · exact Decimal.not_mem_text (by decide)
  simp only [readEndpoint, hsplit, inetPton4_eq_some_iff.mpr rfl, Decimal.read_text,
    Option.bind_eq_bind, Option.bind_some]
  rw [if_pos port.isLt, BitVec.ofNat_toNat, BitVec.setWidth_eq]

/-- No endpoint is longer than its buffer. -/
theorem snprintf_endpointText (h : ip.dotted.length ≤ 7) :
    snprintf maxAddrLen (endpointText ip port) = endpointText ip port := by
  have hport : (Decimal.text port.toNat).length ≤ 5 :=
    (Decimal.length_text_le_iff (by decide)).mpr (by have := port.isLt; omega)
  refine List.take_of_length_le ?_
  simp only [endpointText, List.length_append, List.length_cons, maxAddrLen]
  omega

/-- Four digits and three points fit in a pointer. -/
theorem length_dotted_le_iff :
    ip.dotted.length ≤ 7 ↔ ip.a < 10 ∧ ip.b < 10 ∧ ip.c < 10 ∧ ip.d < 10 := by
  have hdigit (x : BitVec 8) : (Decimal.text x.toNat).length ≤ 1 ↔ x < 10 := by
    rw [Decimal.length_text_le_iff (by decide), BitVec.lt_def]
    rfl
  have hpos (x : BitVec 8) := Decimal.length_text_pos x.toNat
  rw [length_dotted, ← hdigit, ← hdigit, ← hdigit, ← hdigit]
  have ha := hpos ip.a
  have hb := hpos ip.b
  have hc := hpos ip.c
  have hd := hpos ip.d
  omega

theorem getIP_ofText : (Address.ofText inet6 ip.dotted port raw).getIP inet6 =
    if ip.dotted.length ≤ 7 then (true, ip.dotted) else (false, []) := by
  rw [ofText_dotted]
  simp only [Address.getIP, inetNtop, sizeofPointer, if_true]
  split_ifs <;> first | rfl | omega

/-- **The addresses that keep their text**: those whose octets all have one digit. -/
theorem address_text_iff (inet6 : Inet6) (ip : Ipv4) (port : BitVec 16) (raw : Address) :
    (Address.ofText inet6 ip.dotted port raw).Tells inet6 ip port ↔
      ip.a < 10 ∧ ip.b < 10 ∧ ip.c < 10 ∧ ip.d < 10 := by
  rw [← length_dotted_le_iff]
  constructor
  · intro h
    have hip := h.getIP
    rw [getIP_ofText] at hip
    by_contra hlong
    simp [hlong] at hip
  · intro hshort
    have hip : (Address.ofText inet6 ip.dotted port raw).getIP inet6 = (true, ip.dotted) := by
      rw [getIP_ofText, if_pos hshort]
    have hport : (Address.ofText inet6 ip.dotted port raw).getPort = port := by
      rw [ofText_dotted]
      exact ntohs_htons port
    have htext : (Address.ofText inet6 ip.dotted port raw).toString inet6 =
        (true, endpointText ip port) := by
      have hfamily : (Address.ofText inet6 ip.dotted port raw).family = afInet := by
        rw [ofText_dotted]
      simp only [Address.toString, hfamily, if_true, hip, hport]
      exact congrArg (Prod.mk true) (snprintf_endpointText hshort)
    exact ⟨hip, hport, htext, htext ▸ readEndpoint_endpointText⟩

end

/-- `127.0.0.1` is told as the empty text, and with its port as `:80`. -/
theorem localhost_untold : ¬∀ (inet6 : Inet6) (ip : Ipv4) (port : BitVec 16) (raw : Address),
    (Address.ofText inet6 ip.dotted port raw).Tells inet6 ip port := by
  intro h
  let inet6 : Inet6 := ⟨fun _ => none, fun _ => [], nofun⟩
  have hip := (h inet6 ⟨127, 0, 0, 1⟩ 80 ⟨0, 0, ⟨0, 0, 0, 0⟩, ⟨0, 0⟩, 0⟩).getIP
  rw [getIP_ofText, if_neg (by decide)] at hip
  cases hip

end Xfnet
