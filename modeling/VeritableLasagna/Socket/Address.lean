import VeritableLasagna.Lib.Machine
import VeritableLasagna.Lib.Split

/-!
# Socket addresses from text

`vlSocketAddressFromString` takes a text apart at the last colon, or behind the first closing bracket, leaves
the host to `inet_pton` and the port to `atoi`. That function reads as much of a number as it finds, and what
it returns is cut to 16 bits, so the port is not checked at all: `127.0.0.1:80x`, `127.0.0.1:` and
`127.0.0.1:65616` are addresses with ports.

`PortWritten` says for which texts this makes no difference, and **`vlSocketAddressFromString_exact_iff`** that it
makes one for all others.
-/

namespace VeritableLasagna

/-! ### The C library -/

/-- `isspace`, in the C locale. -/
def isSpace (c : Char) : Bool := c == ' ' || (9 ≤ c.toNat && c.toNat ≤ 13)

/-- The number decimal digits stand for. -/
def decimalValue (digits : List Char) : ℕ := digits.foldl (fun n c => 10 * n + (c.toNat - '0'.toNat)) 0

/-- The number at the start of a text: blanks, a sign, and as many digits as there are. -/
def leadingNumber (text : List Char) : ℤ :=
  match text.dropWhile isSpace with
  | '-' :: rest => -(decimalValue (rest.takeWhile Char.isDigit) : ℤ)
  | '+' :: rest => decimalValue (rest.takeWhile Char.isDigit)
  | rest => decimalValue (rest.takeWhile Char.isDigit)

/-- A number of type `int`. -/
def FitsInt (n : ℤ) : Prop := -2 ^ 31 ≤ n ∧ n < 2 ^ 31

instance (n : ℤ) : Decidable (FitsInt n) := inferInstanceAs (Decidable (_ ∧ _))

/-- `atoi`, which is undefined where the number is none of its type. -/
def atoi (text : List Char) : Except Fault ℤ :=
  if FitsInt (leadingNumber text) then .ok (leadingNumber text) else .error .signedOverflow

/-- `vl_socket_domain`. -/
inductive VlSocketDomain
  | ipv4
  | ipv6
  deriving DecidableEq

/-- `inet_pton`, for each of the two families: the bytes of an address, if the text is one. -/
def InetPton : Type := VlSocketDomain → List Char → Option (List UInt8)

/-- What is known of the texts `inet_pton` accepts: an IPv4 address is written in digits and dots and has four
bytes, an IPv6 address is written in hexadecimal digits, colons and dots and has sixteen; and neither is
longer than `INET_ADDRSTRLEN` and `INET6_ADDRSTRLEN` allow. -/
structure InetPton.Documented (pton : InetPton) : Prop where
  ipv4 : ∀ text bytes, pton .ipv4 text = some bytes →
    (∀ c ∈ text, c.isDigit ∨ c = '.') ∧ text.length < 16 ∧ bytes.length = 4
  ipv6 : ∀ text bytes, pton .ipv6 text = some bytes →
    (∀ c ∈ text, c.isDigit ∨ c ∈ ['a', 'b', 'c', 'd', 'e', 'f', 'A', 'B', 'C', 'D', 'E', 'F', ':', '.']) ∧
      text.length < 46 ∧ bytes.length = 16

/-! ### The parser -/

/-- `vl_socket_address`. The two kinds of hosts share their bytes. -/
structure VlSocketAddress where
  domain : VlSocketDomain
  port : ℕ
  host : List UInt8
  deriving DecidableEq

/-- What both branches do once the host is copied: convert the port, convert the host, and set the address. -/
def vlSocketAddressSet (address : VlSocketAddress) (domain : VlSocketDomain) (pton : Option (List UInt8))
    (portText : List Char) : Except Fault (Bool × VlSocketAddress) := do
  let port ← atoi portText
  match pton with
  | none => return (false, address)
  | some bytes =>
    return (true, ⟨domain, (port % 2 ^ 16).toNat, bytes ++ address.host.drop bytes.length⟩)

/-- `vlSocketAddressFromString`, of the characters before the terminator. A pointer into the string is given
by what is before it and what is behind. -/
def vlSocketAddressFromString (pton : InetPton) (address : VlSocketAddress) (string : List Char) :
    Except Fault (Bool × VlSocketAddress) :=
  if string.head? = some '[' then
    match splitFirst ']' string with
    | none => .ok (false, address)
    | some (front, back) =>
      if back.head? ≠ some ':' then .ok (false, address)
      else
        let host := front.tail
        if host.length ≥ 256 then .ok (false, address)
        else vlSocketAddressSet address .ipv6 (pton .ipv6 host) back.tail
  else
    match splitLast ':' string with
    | none => .ok (false, address)
    | some (host, portText) =>
      if host.length ≥ 256 then .ok (false, address)
      else vlSocketAddressSet address .ipv4 (pton .ipv4 host) portText

/-! ### The grammar -/

/-- The text is that of a port: decimal digits, at least one, of a number of 16 bits. -/
def IsPort (text : List Char) (port : ℕ) : Prop :=
  text ≠ [] ∧ (∀ c ∈ text, c.isDigit) ∧ decimalValue text = port ∧ port < 2 ^ 16

/-- The text is that of an address. -/
inductive IsAddress (pton : InetPton) : List Char → VlSocketDomain → List UInt8 → ℕ → Prop
  | ipv4 {host portText : List Char} {bytes : List UInt8} {port : ℕ} :
      pton .ipv4 host = some bytes → IsPort portText port →
      IsAddress pton (host ++ ':' :: portText) .ipv4 bytes port
  | ipv6 {host portText : List Char} {bytes : List UInt8} {port : ℕ} :
      pton .ipv6 host = some bytes → IsPort portText port →
      IsAddress pton ('[' :: host ++ ']' :: ':' :: portText) .ipv6 bytes port

/-- **What parsing has to do**: accept the text of an address, and nothing else, set the address to what is
written, and leave it alone otherwise. -/
def ParsesExactly (pton : InetPton) (address : VlSocketAddress) (string : List Char) : Prop :=
  Returns (vlSocketAddressFromString pton address string) fun r =>
    (r.1 = true ↔ ∃ domain bytes port, IsAddress pton string domain bytes port) ∧
      (∀ domain bytes port, IsAddress pton string domain bytes port →
        r.2 = ⟨domain, port, bytes ++ address.host.drop bytes.length⟩) ∧
      ((¬ ∃ domain bytes port, IsAddress pton string domain bytes port) → r.2 = address)

/-- Where a text is taken apart: behind the first closing bracket and a colon, if it starts with a bracket, or
else at the last colon. The host has to fit into the array it is copied to. -/
inductive AddressParts : List Char → VlSocketDomain → List Char → List Char → Prop
  | ipv4 {host portText : List Char} : ':' ∉ portText → (host ++ ':' :: portText).head? ≠ some '[' →
      host.length < 256 → AddressParts (host ++ ':' :: portText) .ipv4 host portText
  | ipv6 {host portText : List Char} : ']' ∉ host → host.length < 256 →
      AddressParts ('[' :: host ++ ']' :: ':' :: portText) .ipv6 host portText

/-- **Where the parser does what it has to**: if the text can be taken apart, it has a number of type `int` where
the port is to be, and it has a port there if the host is an address. -/
def PortWritten (pton : InetPton) (string : List Char) : Prop :=
  ∀ domain host portText, AddressParts string domain host portText →
    FitsInt (leadingNumber portText) ∧ (pton domain host ≠ none → ∃ port, IsPort portText port)

/-! ### Taking a text apart -/

section Parts

variable {pton : InetPton} {address : VlSocketAddress} {string host portText host' portText' : List Char}
  {domain domain' : VlSocketDomain} {bytes : List UInt8} {port : ℕ}

/-- The parts are what the searches for the separators find. -/
theorem addressParts_iff : AddressParts string domain host portText ↔ host.length < 256 ∧
    (domain = .ipv4 ∧ string.head? ≠ some '[' ∧ splitLast ':' string = some (host, portText) ∨
      domain = .ipv6 ∧ string.head? = some '[' ∧
        splitFirst ']' string = some ('[' :: host, ':' :: portText)) := by
  have hbracket : ']' ∉ '[' :: host ↔ ']' ∉ host := by
    rw [List.mem_cons, not_or]
    exact and_iff_right (by decide)
  rw [splitLast_eq_some, splitFirst_eq_some, hbracket]
  constructor
  · intro h
    cases h with
    | ipv4 hport hhead hlen => exact ⟨hlen, Or.inl ⟨rfl, hhead, rfl, hport⟩⟩
    | ipv6 hhost hlen => exact ⟨hlen, Or.inr ⟨rfl, rfl, rfl, hhost⟩⟩
  · rintro ⟨hlen, ⟨rfl, hhead, rfl, hport⟩ | ⟨rfl, -, rfl, hhost⟩⟩
    · exact .ipv4 hport hhead hlen
    · exact .ipv6 hhost hlen

/-- There is one way to take a text apart. -/
theorem AddressParts.unique (h : AddressParts string domain host portText)
    (h' : AddressParts string domain' host' portText') :
    domain = domain' ∧ host = host' ∧ portText = portText' := by
  rw [addressParts_iff] at h h'
  obtain ⟨-, ⟨rfl, hhead, hsplit⟩ | ⟨rfl, hhead, hsplit⟩⟩ := h
  · obtain ⟨-, ⟨rfl, -, hsplit'⟩ | ⟨-, hhead', -⟩⟩ := h'
    · obtain ⟨rfl, rfl⟩ := Prod.mk.inj (Option.some_injective _ (hsplit.symm.trans hsplit'))
      exact ⟨rfl, rfl, rfl⟩
    · exact absurd hhead' hhead
  · obtain ⟨-, ⟨-, hhead', -⟩ | ⟨rfl, -, hsplit'⟩⟩ := h'
    · exact absurd hhead hhead'
    · obtain ⟨hfront, hback⟩ := Prod.mk.inj (Option.some_injective _ (hsplit.symm.trans hsplit'))
      exact ⟨rfl, (List.cons.inj hfront).2, (List.cons.inj hback).2⟩

/-- **What the parser does.** -/
theorem vlSocketAddressFromString_cases (pton : InetPton) (address : VlSocketAddress) (string : List Char) :
    (∃ domain host portText, AddressParts string domain host portText ∧
      vlSocketAddressFromString pton address string =
        vlSocketAddressSet address domain (pton domain host) portText) ∨
    ((∀ domain host portText, ¬ AddressParts string domain host portText) ∧
      vlSocketAddressFromString pton address string = .ok (false, address)) := by
  simp only [addressParts_iff]
  rw [vlSocketAddressFromString]
  split_ifs with hhead
  · cases hsplit : splitFirst ']' string with
    | none =>
      refine Or.inr ⟨?_, rfl⟩
      rintro domain host portText ⟨-, ⟨-, hne, -⟩ | ⟨-, -, hsome⟩⟩
      · exact hne hhead
      · cases hsome
    | some p =>
      obtain ⟨front, back⟩ := p
      obtain ⟨hstring, -⟩ := splitFirst_eq_some.mp hsplit
      -- the text starts with a bracket that opens, so it is in front of the one that closes
      obtain ⟨host, rfl⟩ : ∃ host, front = '[' :: host := by
        cases front with
        | nil =>
          rw [hstring] at hhead
          cases hhead
        | cons c host =>
          rw [hstring] at hhead
          exact ⟨host, by rw [Option.some_injective _ hhead]⟩
      dsimp only
      rw [List.tail_cons]
      split_ifs with hcolon hlen
      · refine Or.inr ⟨?_, rfl⟩
        rintro domain host' portText ⟨-, ⟨-, hne, -⟩ | ⟨-, -, hsome⟩⟩
        · exact hne hhead
        · obtain ⟨-, rfl⟩ := Prod.mk.inj (Option.some_injective _ hsome)
          exact hcolon rfl
      · refine Or.inr ⟨?_, rfl⟩
        rintro domain host' portText ⟨hlen', ⟨-, hne, -⟩ | ⟨-, -, hsome⟩⟩
        · exact hne hhead
        · obtain ⟨hfront, -⟩ := Prod.mk.inj (Option.some_injective _ hsome)
          obtain ⟨-, rfl⟩ := List.cons.inj hfront
          omega
      · obtain ⟨portText, rfl⟩ : ∃ portText, back = ':' :: portText := by
          rw [not_not] at hcolon
          cases back with
          | nil => cases hcolon
          | cons c portText => exact ⟨portText, by rw [Option.some_injective _ hcolon]⟩
        exact Or.inl ⟨.ipv6, host, portText, ⟨by omega, Or.inr ⟨rfl, hhead, rfl⟩⟩, rfl⟩
  · cases hsplit : splitLast ':' string with
    | none =>
      refine Or.inr ⟨?_, rfl⟩
      rintro domain host portText ⟨-, ⟨-, -, hsome⟩ | ⟨-, heq, -⟩⟩
      · cases hsome
      · exact hhead heq
    | some p =>
      obtain ⟨host, portText⟩ := p
      dsimp only
      split_ifs with hlen
      · refine Or.inr ⟨?_, rfl⟩
        rintro domain host' portText' ⟨hlen', ⟨-, -, hsome⟩ | ⟨-, heq, -⟩⟩
        · obtain ⟨rfl, -⟩ := Prod.mk.inj (Option.some_injective _ hsome)
          omega
        · exact hhead heq
      · exact Or.inl ⟨.ipv4, host, portText, ⟨by omega, Or.inl ⟨rfl, hhead, rfl⟩⟩, rfl⟩

/-- The text of an address is taken apart where its parts are. -/
theorem IsAddress.parts (hpton : pton.Documented) (h : IsAddress pton string domain bytes port) :
    ∃ host portText, AddressParts string domain host portText ∧ pton domain host = some bytes ∧
      IsPort portText port := by
  cases h with
  | ipv4 hhost hport =>
    obtain ⟨hchars, hlen, -⟩ := hpton.ipv4 _ _ hhost
    refine ⟨_, _, .ipv4 ?_ ?_ (by omega), hhost, hport⟩
    · intro hmem
      exact absurd (hport.2.1 _ hmem) (by decide)
    · rename_i host portText
      cases host with
      | nil => exact fun h => absurd (Option.some_injective _ h) (by decide)
      | cons c host =>
        intro hhead
        obtain rfl := Option.some_injective _ hhead
        exact absurd (hchars _ List.mem_cons_self) (by decide)
  | ipv6 hhost hport =>
    obtain ⟨hchars, hlen, -⟩ := hpton.ipv6 _ _ hhost
    refine ⟨_, _, .ipv6 ?_ (by omega), hhost, hport⟩
    intro hmem
    exact absurd (hchars _ hmem) (by decide)

/-- A text whose parts are those of an address is one. -/
theorem AddressParts.isAddress (h : AddressParts string domain host portText)
    (hpton : pton domain host = some bytes) (hport : IsPort portText port) :
    IsAddress pton string domain bytes port := by
  cases h with
  | ipv4 => exact .ipv4 hpton hport
  | ipv6 => exact .ipv6 hpton hport

/-! ### The conversions -/

/-- **A port is read as it is written.** -/
theorem IsPort.leadingNumber (h : IsPort portText port) : leadingNumber portText = port := by
  obtain ⟨hne, hdigits, hvalue, -⟩ := h
  have hspan : portText.takeWhile Char.isDigit = portText := List.takeWhile_eq_self_iff.mpr hdigits
  cases portText with
  | nil => exact absurd rfl hne
  | cons c rest =>
    have hdigit : c.isDigit = true := hdigits c List.mem_cons_self
    have hspace : ¬ isSpace c = true := by
      have hlow : 48 ≤ c.toNat := (Char.isDigit_iff_toNat.mp hdigit).1
      rw [isSpace, Bool.or_eq_true, Bool.and_eq_true, decide_eq_true_eq, decide_eq_true_eq, beq_iff_eq]
      rintro (rfl | ⟨-, hhigh⟩)
      · exact absurd hdigit (by decide)
      · omega
    rw [VeritableLasagna.leadingNumber, List.dropWhile_cons_of_neg hspace]
    split
    · rename_i heq
      obtain ⟨rfl, -⟩ := List.cons.inj heq
      exact absurd hdigit (by decide)
    · rename_i heq
      obtain ⟨rfl, -⟩ := List.cons.inj heq
      exact absurd hdigit (by decide)
    · rw [hspan, hvalue]

/-- **What the last step does**: it fails where the number is too large, leaves the address alone where the host
is none, and sets it otherwise. -/
theorem vlSocketAddressSet_eq (hfits : FitsInt (leadingNumber portText)) {pton : Option (List UInt8)} :
    vlSocketAddressSet address domain pton portText = .ok (pton.elim (false, address) fun bytes =>
      (true, ⟨domain, (leadingNumber portText % 2 ^ 16).toNat, bytes ++ address.host.drop bytes.length⟩)) := by
  rw [vlSocketAddressSet, atoi, if_pos hfits, ok_bind]
  cases pton <;> rfl

theorem fits_of_vlSocketAddressSet {pton : Option (List UInt8)} {r : Bool × VlSocketAddress}
    (hop : vlSocketAddressSet address domain pton portText = .ok r) : FitsInt (leadingNumber portText) := by
  obtain ⟨n, hn, -⟩ := exists_of_bind_eq_ok hop
  rw [atoi] at hn
  split_ifs at hn with hfits
  exact hfits

end Parts

/-- **The parser accepts exactly its grammar where a port is written**, and goes wrong on all other texts. -/
theorem vlSocketAddressFromString_exact_iff {pton : InetPton} (hpton : pton.Documented)
    (address : VlSocketAddress) (string : List Char) :
    ParsesExactly pton address string ↔ PortWritten pton string := by
  rcases vlSocketAddressFromString_cases pton address string with ⟨domain, host, portText, hparts, hop⟩ |
    ⟨hnone, hop⟩
  · rw [ParsesExactly, hop]
    constructor
    · rintro ⟨r, hset, htrue, -⟩ domain' host' portText' hparts'
      obtain ⟨rfl, rfl, rfl⟩ := hparts.unique hparts'
      have hfits := fits_of_vlSocketAddressSet hset
      refine ⟨hfits, fun hhost => ?_⟩
      obtain ⟨bytes, hbytes⟩ := Option.ne_none_iff_exists'.mp hhost
      rw [vlSocketAddressSet_eq hfits, hbytes] at hset
      obtain rfl := Except.ok.inj hset
      obtain ⟨domain', bytes', port, haddress⟩ := htrue.mp rfl
      obtain ⟨host', portText', hparts', -, hport⟩ := haddress.parts hpton
      obtain ⟨rfl, rfl, rfl⟩ := hparts.unique hparts'
      exact ⟨port, hport⟩
    · intro hwritten
      obtain ⟨hfits, hport⟩ := hwritten domain host portText hparts
      rw [vlSocketAddressSet_eq hfits]
      cases hbytes : pton domain host with
      | none =>
        have hnone : ¬ ∃ domain bytes port, IsAddress pton string domain bytes port := by
          rintro ⟨domain', bytes, port, haddress⟩
          obtain ⟨host', portText', hparts', hhost, -⟩ := haddress.parts hpton
          obtain ⟨rfl, rfl, rfl⟩ := hparts.unique hparts'
          cases hbytes.symm.trans hhost
        refine returns_ok ⟨iff_of_false Bool.false_ne_true hnone, fun domain bytes port haddress => ?_,
          fun _ => rfl⟩
        exact absurd ⟨domain, bytes, port, haddress⟩ hnone
      | some bytes =>
        obtain ⟨port, hport⟩ := hport (by rw [hbytes]; exact Option.some_ne_none bytes)
        have haddress : IsAddress pton string domain bytes port := hparts.isAddress hbytes hport
        have hread : (leadingNumber portText % 2 ^ 16).toNat = port := by
          have hlt := hport.2.2.2
          rw [hport.leadingNumber]
          omega
        refine returns_ok ⟨iff_of_true rfl ⟨domain, bytes, port, haddress⟩, ?_, fun hnone => ?_⟩
        · intro domain' bytes' port' haddress'
          obtain ⟨host', portText', hparts', hhost, hport'⟩ := haddress'.parts hpton
          obtain ⟨rfl, rfl, rfl⟩ := hparts.unique hparts'
          obtain rfl := Option.some_injective _ (hbytes.symm.trans hhost)
          obtain rfl := hport.2.2.1.symm.trans hport'.2.2.1
          rw [Option.elim_some, hread]
        · exact absurd ⟨domain, bytes, port, haddress⟩ hnone
  · have hnot : ¬ ∃ domain bytes port, IsAddress pton string domain bytes port := by
      rintro ⟨domain, bytes, port, haddress⟩
      obtain ⟨host, portText, hparts, -⟩ := haddress.parts hpton
      exact hnone domain host portText hparts
    rw [ParsesExactly, hop]
    refine iff_of_true (returns_ok ⟨iff_of_false Bool.false_ne_true hnot, fun domain bytes port haddress => ?_,
      fun _ => rfl⟩) fun domain host portText hparts => absurd hparts (hnone domain host portText)
    exact absurd ⟨domain, bytes, port, haddress⟩ hnot

/-- An `inet_pton` that knows the two loopback addresses. -/
def loopbackPton : InetPton
  | .ipv4, text => if text = ['1', '2', '7', '.', '0', '.', '0', '.', '1'] then some [127, 0, 0, 1] else none
  | .ipv6, text =>
    if text = [':', ':', '1'] then some [0, 0, 0, 0, 0, 0, 0, 0, 0, 0, 0, 0, 0, 0, 0, 1] else none

theorem documented_loopbackPton : loopbackPton.Documented := by
  constructor
  · intro text bytes h
    rw [loopbackPton] at h
    split_ifs at h with htext
    obtain rfl := Option.some_injective _ h
    subst htext
    exact ⟨by simp, by decide, rfl⟩
  · intro text bytes h
    rw [loopbackPton] at h
    split_ifs at h with htext
    obtain rfl := Option.some_injective _ h
    subst htext
    exact ⟨by simp, by decide, rfl⟩

/-- What is behind the digits of the port `80x` is not read. -/
theorem not_parsesExactly_letter : ¬ ParsesExactly loopbackPton ⟨.ipv4, 0, List.replicate 16 0⟩
    ['1', '2', '7', '.', '0', '.', '0', '.', '1', ':', '8', '0', 'x'] := by
  have hparts : AddressParts ['1', '2', '7', '.', '0', '.', '0', '.', '1', ':', '8', '0', 'x'] .ipv4
      ['1', '2', '7', '.', '0', '.', '0', '.', '1'] ['8', '0', 'x'] :=
    addressParts_iff.mpr ⟨by decide, Or.inl ⟨rfl, by decide, by decide +kernel⟩⟩
  have haccepted : (vlSocketAddressFromString loopbackPton ⟨.ipv4, 0, List.replicate 16 0⟩
      ['1', '2', '7', '.', '0', '.', '0', '.', '1', ':', '8', '0', 'x']).toOption.any Prod.fst = true := by
    decide +kernel
  rintro ⟨r, hop, htrue, -⟩
  rw [hop] at haccepted
  obtain ⟨domain, bytes, port, haddress⟩ := htrue.mp haccepted
  obtain ⟨host, portText, hparts', -, hport⟩ := haddress.parts documented_loopbackPton
  obtain ⟨rfl, rfl, rfl⟩ := hparts.unique hparts'
  exact absurd (hport.2.1 'x' (by decide)) (by decide)

/-- The loopback address, with a port. -/
theorem vlSocketAddressFromString_exact_iff_loopback :
    ParsesExactly loopbackPton ⟨.ipv4, 0, List.replicate 16 0⟩
      ['[', ':', ':', '1', ']', ':', '4', '4', '3'] := by
  refine (vlSocketAddressFromString_exact_iff documented_loopbackPton _ _).mpr ?_
  have hparts : AddressParts ['[', ':', ':', '1', ']', ':', '4', '4', '3'] .ipv6 [':', ':', '1']
      ['4', '4', '3'] := addressParts_iff.mpr ⟨by decide, Or.inr ⟨rfl, rfl, by decide +kernel⟩⟩
  intro domain host portText hparts'
  obtain ⟨rfl, rfl, rfl⟩ := hparts.unique hparts'
  exact ⟨by decide, fun _ => ⟨443, by decide, by simp, rfl, by norm_num⟩⟩

end VeritableLasagna
