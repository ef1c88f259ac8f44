import Xfnet.Address.Text

/-!
# What the text of an `Address` tells

`ToString` joins what `GetIP` answers with the port, and an empty text where it fails. The text is
never cut off at the end of its buffer, and two addresses have the same text only where both texts
of `GetIP`, both ports and the form of both agree (`text_told`): so what is lost is lost in `GetIP`.
An address and its port can be read from the text when `GetIP` has succeeded for an IPv4 address.
-/

namespace Xfnet

/-- The text that `inet_ntop` would write. -/
def Address.ipText (inet6 : Inet6) (addr : Address) : List Char :=
  if addr.family = afInet then addr.word.dotted else inet6.ntop addr.addr6

/-- The text of the port. -/
def Address.portText (addr : Address) : List Char := Decimal.text addr.getPort.toNat

section

variable {inet6 : Inet6} {addr addr' : Address} {text : List Char} {ip : Ipv4} {port : BitVec 16}

theorem colon_not_mem_portText : ':' ∉ addr.portText := Decimal.not_mem_text (by decide)

theorem length_portText (addr : Address) : addr.portText.length ≤ 5 :=
  (Decimal.length_text_le_iff (by decide)).mpr (by have := addr.getPort.isLt; omega)

theorem portText_eq : addr.portText = Decimal.text port.toNat ↔ addr.getPort = port := by
  rw [Address.portText, Decimal.text_inj, BitVec.toNat_inj]

theorem bracket_not_mem_dotted (ip : Ipv4) : '[' ∉ ip.dotted :=
  Decimal.not_mem_row (by decide) (by decide)

/-- `GetIP` succeeds for the texts that fit in a pointer. -/
theorem getIP_eq : addr.getIP inet6 =
    if (addr.ipText inet6).length ≤ 7 then (true, addr.ipText inet6) else (false, []) := by
  simp only [Address.getIP, Address.ipText, inetNtop, sizeofPointer]
  split_ifs <;> first | rfl | omega

theorem length_getIP (inet6 : Inet6) (addr : Address) : (addr.getIP inet6).2.length ≤ 7 := by
  rw [getIP_eq]
  split_ifs with h
  · exact h
  · exact Nat.zero_le _

/-- An IPv4 address does not look like an IPv6 address. -/
theorem bracket_not_mem_getIP (inet6 : Inet6) (hfamily : addr.family = afInet) :
    '[' ∉ (addr.getIP inet6).2 := by
  rw [getIP_eq, Address.ipText, if_pos hfamily]
  split_ifs
  · exact bracket_not_mem_dotted _
  · exact List.not_mem_nil

/-- What `ToString` writes in front of the port. -/
def Address.hostText (inet6 : Inet6) (addr : Address) : List Char :=
  if addr.family = afInet then (addr.getIP inet6).2 else '[' :: (addr.getIP inet6).2 ++ [']']

theorem length_hostText (inet6 : Inet6) (addr : Address) :
    (addr.hostText inet6).length ≤ 9 := by
  have hip := length_getIP inet6 addr
  rw [Address.hostText]
  split_ifs
  · omega
  · simp only [List.length_append, List.length_cons, List.length_nil]
    omega

theorem length_text_lt (inet6 : Inet6) (addr : Address) :
    (addr.hostText inet6 ++ ':' :: addr.portText).length < maxAddrLen := by
  have hhost := length_hostText inet6 addr
  have hport := length_portText addr
  rw [List.length_append, List.length_cons, maxAddrLen]
  omega

/-- **Nothing is cut off.** -/
theorem toString_eq : (addr.toString inet6).2 = addr.hostText inet6 ++ ':' :: addr.portText := by
  have hcut : snprintf maxAddrLen (addr.hostText inet6 ++ ':' :: addr.portText) =
      addr.hostText inet6 ++ ':' :: addr.portText :=
    List.take_of_length_le (Nat.le_sub_one_of_lt (length_text_lt inet6 addr))
  rw [← hcut]
  by_cases hfamily : addr.family = afInet
  · simp [Address.toString, Address.hostText, Address.portText, hfamily]
  · simp [Address.toString, Address.hostText, Address.portText, hfamily]

/-- The form and the text of `GetIP` can be told from the host. -/
theorem hostText_inj : addr.hostText inet6 = addr'.hostText inet6 ↔
    (addr.family = afInet ↔ addr'.family = afInet) ∧
      (addr.getIP inet6).2 = (addr'.getIP inet6).2 := by
  have hmixed {addr addr' : Address} (h : addr.family = afInet) (h' : addr'.family ≠ afInet) :
      addr.hostText inet6 ≠ addr'.hostText inet6 := by
    intro he
    rw [Address.hostText, if_pos h, Address.hostText, if_neg h'] at he
    apply bracket_not_mem_getIP inet6 h
    rw [he]
    exact List.mem_append_left _ List.mem_cons_self
  by_cases h : addr.family = afInet <;> by_cases h' : addr'.family = afInet
  · simp [Address.hostText, h, h']
  · simp [h, h', hmixed h h']
  · simp [h, h', (hmixed h' h).symm]
  · simp [Address.hostText, h, h']

/-- **A text is read from its endpoint only.** -/
theorem readEndpoint_eq_some_iff : readEndpoint text = some (ip, port) ↔
    text = endpointText ip port := by
  constructor
  · intro h
    unfold readEndpoint at h
    split at h
    · next host digits hsplit =>
      obtain ⟨ip', hip, hrest⟩ := Option.bind_eq_some_iff.mp h
      obtain ⟨n, hn, hport⟩ := Option.bind_eq_some_iff.mp hrest
      obtain ⟨hlt, he⟩ := Option.ite_none_right_eq_some.mp hport
      obtain ⟨rfl, rfl⟩ := Prod.mk.inj (Option.some.inj he)
      have htext : [':'].intercalate (text.splitOn ':') = text := List.intercalate_splitOn ..
      rw [hsplit] at htext
      rw [← htext, inetPton4_eq_some_iff.mp hip, Decimal.read_eq_some_iff.mp hn, endpointText,
        BitVec.toNat_ofNat, Nat.mod_eq_of_lt hlt]
      simp [List.intercalate_cons_cons]
    · cases h
  · rintro rfl
    exact readEndpoint_endpointText

/-- A host that looks like an IPv4 address is one, which `GetIP` has answered. -/
theorem hostText_eq_dotted : addr.hostText inet6 = ip.dotted ↔
    addr.family = afInet ∧ addr.getIP inet6 = (true, ip.dotted) := by
  constructor
  · intro h
    by_cases hfamily : addr.family = afInet
    · rw [Address.hostText, if_pos hfamily, getIP_eq] at h
      refine ⟨hfamily, ?_⟩
      rw [getIP_eq]
      split_ifs at h ⊢
      · rw [← h]
      · have hlength := congrArg List.length h
        rw [length_dotted, List.length_nil] at hlength
        omega
    · rw [Address.hostText, if_neg hfamily] at h
      apply absurd _ (bracket_not_mem_dotted ip)
      rw [← h]
      exact List.mem_append_left _ List.mem_cons_self
  · rintro ⟨hfamily, hip⟩
    rw [Address.hostText, if_pos hfamily, hip]

/-- **What the text tells** of any two addresses, whatever is in them: it is never cut off, as host
and port fit the buffer; they have the same text only if they have the same form, port and answer of
`GetIP`; and an address and a port are read from it exactly when it is an IPv4 address that `GetIP`
has answered. -/
theorem text_told (inet6 : Inet6) (addr addr' : Address) :
    ((addr.toString inet6).2 = addr.hostText inet6 ++ ':' :: addr.portText ∧
        (addr.hostText inet6 ++ ':' :: addr.portText).length < maxAddrLen) ∧
      ((addr.toString inet6).2 = (addr'.toString inet6).2 ↔
        (addr.family = afInet ↔ addr'.family = afInet) ∧
          (addr.getIP inet6).2 = (addr'.getIP inet6).2 ∧ addr.getPort = addr'.getPort) ∧
      ∀ ip port, readEndpoint (addr.toString inet6).2 = some (ip, port) ↔
        addr.family = afInet ∧ addr.getIP inet6 = (true, ip.dotted) ∧ addr.getPort = port := by
  refine ⟨⟨toString_eq, length_text_lt inet6 addr⟩, ?_, fun ip port => ?_⟩
  · have hports : addr.portText = addr'.portText ↔ addr.getPort = addr'.getPort := portText_eq
    rw [toString_eq, toString_eq,
      Decimal.append_cons_inj colon_not_mem_portText colon_not_mem_portText, hostText_inj, hports,
      and_assoc]
  · rw [readEndpoint_eq_some_iff, toString_eq, endpointText,
      Decimal.append_cons_inj colon_not_mem_portText (Decimal.not_mem_text (by decide)),
      hostText_eq_dotted, portText_eq, and_assoc]

end

end Xfnet
