import Xfnet.Address.Family

/-!
# Texts that are not addresses

The constructor from a text fills the structure with zeros and stores no address when the text is
not well formed, which it does not report. So a text that is not well formed leaves the any-address
of its branch. And since an IPv6 address has the family and the place of an IPv4 one, the two
branches can leave the same bytes too.

`told_apart_iff` is the exact list of the pairs of texts that this confuses.
-/

namespace Xfnet

section Default

variable {α : Type*}

/-- **Reading with a default** keeps two results apart when they are equal, or when one of them is
a value other than the default. -/
theorem eq_of_getD_eq_iff {o p : Option α} {d : α} :
    (o.getD d = p.getD d → o = p) ↔
      o = p ∨ (∃ a, o = some a ∧ a ≠ d) ∨ ∃ a, p = some a ∧ a ≠ d := by
  cases o with
  | none =>
    cases p with
    | none => simp
    | some b => simp [eq_comm]
  | some a =>
    cases p with
    | none => simp
    | some b =>
      constructor
      · intro h
        by_cases ha : a = d
        · by_cases hb : b = d
          · exact .inl (h (ha.trans hb.symm))
          · exact .inr (.inr ⟨b, rfl, hb⟩)
        · exact .inr (.inl ⟨a, rfl, ha⟩)
      · intro _ hab
        exact congrArg some hab

end Default

/-- `Address()`. -/
def Address.zero : Address := ⟨0, 0, ⟨0, 0, 0, 0⟩, ⟨0, 0⟩, 0⟩

/-- The texts get the same `sockaddr`, in some memory, only when they are well-formed texts of the
same address, or neither is well formed. -/
def ToldApart (inet6 : Inet6) (port : BitVec 16) (s t : List Char) : Prop :=
  ∀ rawS rawT, Address.ofText inet6 s port rawS = Address.ofText inet6 t port rawT →
    (Given.text s).endpoint inet6 port = (Given.text t).endpoint inet6 port

/-- The text is a well-formed one of an address that is not zero. What an IPv6 address has in common
with the `sockaddr_in` of a text without a colon is its first half. -/
def NonzeroBeside (inet6 : Inet6) (other ip : List Char) : Prop :=
  if ':' ∉ ip then ∃ sinAddr, inetPton4 ip = some sinAddr ∧ sinAddr ≠ ⟨0, 0, 0, 0⟩
  else if ':' ∈ other then ∃ sin6Addr, inet6.pton ip = some sin6Addr ∧ sin6Addr ≠ ⟨0, 0⟩
  else ∃ sin6Addr, inet6.pton ip = some sin6Addr ∧ sin6Addr.high ≠ 0

section

variable {inet6 : Inet6} {port : BitVec 16} {s t ip other : List Char} {raw : Address}

/-! ## The two branches -/

theorem ofText_of_not_colon (h : ':' ∉ ip) : Address.ofText inet6 ip port raw =
    { raw with family := afInet, port := htons port, word := (inetPton4 ip).getD ⟨0, 0, 0, 0⟩,
               addr6.high := 0 } := by
  rw [Address.ofText, if_pos h]
  cases inetPton4 ip <;> rfl

theorem ofText_of_colon (h : ':' ∈ ip) : Address.ofText inet6 ip port raw =
    ⟨afInet, htons port, ⟨0, 0, 0, 0⟩, (inet6.pton ip).getD ⟨0, 0⟩, 0⟩ := by
  rw [Address.ofText, if_neg (not_not.mpr h)]
  cases inet6.pton ip <;> rfl

theorem endpoint_of_not_colon (h : ':' ∉ ip) :
    (Given.text ip).endpoint inet6 port = (inetPton4 ip).map fun a => .ipv4 a port := by
  have hpton : inet6.pton ip = none :=
    Option.eq_none_iff_forall_ne_some.mpr fun a ha => h (inet6.colon ip a ha)
  rw [Given.endpoint, hpton]
  cases inetPton4 ip <;> rfl

theorem endpoint_of_colon (h : ':' ∈ ip) :
    (Given.text ip).endpoint inet6 port = (inet6.pton ip).map fun a => .ipv6 a port := by
  have hpton : inetPton4 ip = none := by
    refine Option.eq_none_iff_forall_ne_some.mpr fun a ha => ?_
    rw [inetPton4_eq_some_iff.mp ha] at h
    exact colon_not_mem_dotted a h
  rw [Given.endpoint, hpton]

/-! ## Texts of one branch -/

/-- In one branch, `store` puts the parsed address or the default `d` in the memory, and `read` is
what the address stands for. -/
theorem toldApart_of_branch {α : Type*} (store : Address → α → Address) (read : α → Endpoint)
    {o p : Option α} {d : α} (hstore : ∀ rawS rawT a b, store rawS a = store rawT b → a = b)
    (hread : Function.Injective read)
    (hs : ∀ raw, Address.ofText inet6 s port raw = store raw (o.getD d))
    (ht : ∀ raw, Address.ofText inet6 t port raw = store raw (p.getD d))
    (hes : (Given.text s).endpoint inet6 port = o.map read)
    (het : (Given.text t).endpoint inet6 port = p.map read) :
    ToldApart inet6 port s t ↔
      (Given.text s).endpoint inet6 port = (Given.text t).endpoint inet6 port ∨
        (∃ a, o = some a ∧ a ≠ d) ∨ ∃ a, p = some a ∧ a ≠ d := by
  rw [ToldApart, hes, het, (Option.map_injective hread).eq_iff, ← eq_of_getD_eq_iff]
  constructor
  · intro h hd
    refine h .zero .zero ?_
    rw [hs, ht, hd]
  · intro h rawS rawT heq
    rw [hs, ht] at heq
    exact h (hstore _ _ _ _ heq)

theorem toldApart_of_not_colon (hs : ':' ∉ s) (ht : ':' ∉ t) :
    ToldApart inet6 port s t ↔
      (Given.text s).endpoint inet6 port = (Given.text t).endpoint inet6 port ∨
        NonzeroBeside inet6 t s ∨ NonzeroBeside inet6 s t := by
  rw [NonzeroBeside, NonzeroBeside, if_pos hs, if_pos ht]
  exact toldApart_of_branch
    (fun raw ip => { raw with family := afInet, port := htons port, word := ip, addr6.high := 0 })
    (fun ip => .ipv4 ip port) (fun _ _ _ _ heq => congrArg Address.word heq)
    (fun _ _ heq => (Endpoint.ipv4.inj heq).1) (fun _ => ofText_of_not_colon hs)
    (fun _ => ofText_of_not_colon ht) (endpoint_of_not_colon hs) (endpoint_of_not_colon ht)

theorem toldApart_of_colon (hs : ':' ∈ s) (ht : ':' ∈ t) :
    ToldApart inet6 port s t ↔
      (Given.text s).endpoint inet6 port = (Given.text t).endpoint inet6 port ∨
        NonzeroBeside inet6 t s ∨ NonzeroBeside inet6 s t := by
  rw [NonzeroBeside, NonzeroBeside, if_neg (not_not.mpr hs), if_neg (not_not.mpr ht), if_pos hs,
    if_pos ht]
  exact toldApart_of_branch (fun _ ip => ⟨afInet, htons port, ⟨0, 0, 0, 0⟩, ip, 0⟩)
    (fun ip => .ipv6 ip port) (fun _ _ _ _ heq => congrArg Address.addr6 heq)
    (fun _ _ heq => (Endpoint.ipv6.inj heq).1) (fun _ => ofText_of_colon hs)
    (fun _ => ofText_of_colon ht) (endpoint_of_colon hs) (endpoint_of_colon ht)

/-! ## Texts of both branches -/

theorem toldApart_comm : ToldApart inet6 port s t ↔ ToldApart inet6 port t s :=
  ⟨fun h rawT rawS heq => (h rawS rawT heq.symm).symm,
    fun h rawS rawT heq => (h rawT rawS heq.symm).symm⟩

/-- What the two branches leave can differ in the IPv4 address, or in the first half of the IPv6
address; the rest of a `sockaddr_in6` is memory that the branch of `sockaddr_in` does not set. -/
theorem toldApart_mixed (hs : ':' ∉ s) (ht : ':' ∈ t) :
    ToldApart inet6 port s t ↔
      (Given.text s).endpoint inet6 port = (Given.text t).endpoint inet6 port ∨
        NonzeroBeside inet6 t s ∨ NonzeroBeside inet6 s t := by
  have hwordS : NonzeroBeside inet6 t s ↔ (inetPton4 s).getD ⟨0, 0, 0, 0⟩ ≠ ⟨0, 0, 0, 0⟩ := by
    rw [NonzeroBeside, if_pos hs]
    cases inetPton4 s <;> simp
  have hhighT : NonzeroBeside inet6 s t ↔ ((inet6.pton t).getD ⟨0, 0⟩).high ≠ 0 := by
    rw [NonzeroBeside, if_neg (not_not.mpr ht), if_neg hs]
    cases inet6.pton t <;> simp
  rw [hwordS, hhighT]
  constructor
  · intro h
    by_contra hnot
    obtain ⟨hne, hzero⟩ := not_or.mp hnot
    obtain ⟨hword, hhigh⟩ := not_or.mp hzero
    rcases e : (inet6.pton t).getD ⟨0, 0⟩ with ⟨high, low⟩
    rw [e] at hhigh
    obtain rfl : high = 0 := not_not.mp hhigh
    -- the memory of the first address holds the half that only the second one stores
    refine hne (h ⟨0, 0, ⟨0, 0, 0, 0⟩, ⟨0, low⟩, 0⟩ .zero ?_)
    rw [ofText_of_not_colon hs, ofText_of_colon ht, not_not.mp hword, e]
  · rintro (heq | hword | hhigh) rawS rawT hsame
    · exact heq
    · rw [ofText_of_not_colon hs, ofText_of_colon ht] at hsame
      exact absurd (congrArg Address.word hsame) hword
    · rw [ofText_of_not_colon hs, ofText_of_colon ht] at hsame
      exact absurd (congrArg (fun addr => addr.addr6.high) hsame).symm hhigh

/-- **The texts that the constructor tells apart**: those that stand for the same address or for
none, and those of which one is the text of an address that is not zero. -/
theorem told_apart_iff (inet6 : Inet6) (port : BitVec 16) (s t : List Char) :
    ToldApart inet6 port s t ↔
      (Given.text s).endpoint inet6 port = (Given.text t).endpoint inet6 port ∨
        NonzeroBeside inet6 t s ∨ NonzeroBeside inet6 s t := by
  by_cases hs : ':' ∈ s
  · by_cases ht : ':' ∈ t
    · exact toldApart_of_colon hs ht
    · rw [toldApart_comm, toldApart_mixed ht hs, eq_comm, or_comm (a := NonzeroBeside inet6 s t)]
  · by_cases ht : ':' ∈ t
    · exact toldApart_mixed hs ht
    · exact toldApart_of_not_colon hs ht

end

/-- `localhost` and `0.0.0.0` get the same `sockaddr`. -/
theorem localhost_is_any : ¬∀ (inet6 : Inet6) (port : BitVec 16) (s t : List Char),
    ToldApart inet6 port s t := by
  intro h
  have heq := h loopback6 80 ['l', 'o', 'c', 'a', 'l', 'h', 'o', 's', 't']
    ['0', '.', '0', '.', '0', '.', '0'] .zero .zero (by decide)
  revert heq
  decide

/-- So do `::1` and `0.0.0.0`, when the memory of the second one held the rest of `::1`. -/
example : ¬ToldApart loopback6 80 [':', ':', '1'] ['0', '.', '0', '.', '0', '.', '0'] := by
  intro h
  have heq := h .zero ⟨0, 0, ⟨0, 0, 0, 0⟩, ⟨0, 1⟩, 0⟩ (by decide)
  revert heq
  decide

end Xfnet
