import MuduoCore.Foundation.DigitText
import MuduoCore.Server.TcpServer
import Mathlib.Data.List.TakeWhile

/-!
# Addresses and their texts

The constructor of `InetAddress` reads an address with `inet_addr`, which takes
one to four numbers in any of the bases of C, the last of them for all the bytes
that are left; the other members print four decimal numbers and the port. Every
address is read back from what is printed, and what is printed, alone or inside
the name of a connection, belongs to one address only.
-/

namespace MuduoCore

open DigitText (strtoul)

/-- What the C library sees of a `std::string`. -/
def c_str (text : Text) : Text := text.takeWhile fun c => c ≠ Char.ofNat 0

def isspace (c : Char) : Bool := c = ' ' || (9 ≤ c.toNat && c.toNat ≤ 13)

/-- The last `n` bytes of a number, the most significant in front. -/
def bigEndian : ℕ → ℕ → List (BitVec 8)
  | 0, _ => []
  | n + 1, val => BitVec.ofNat 8 (val / 256 ^ n) :: bigEndian n val

/-- The numbers of an address, of which `dots` may be followed by a dot; anything
may follow a space. -/
def inet_aton : ℕ → Text → Option (List (BitVec 8))
  | dots, text =>
    if text.head?.any Char.isDigit then
      let (val, rest) := strtoul text
      if 0xffffffff < val then none
      else
        match dots, rest with
        | dots + 1, '.' :: rest =>
          if 0xff < val then none else (inet_aton dots rest).map (BitVec.ofNat 8 val :: ·)
        | 0, '.' :: _ => none
        | dots, rest =>
          if rest.head?.all isspace ∧ val < 256 ^ (dots + 1) then
            some (bigEndian (dots + 1) val)
          else none
    else none

def INADDR_NONE : Fin 4 → BitVec 8 := fun _ => 0xff

def inet_addr (cp : Text) : Fin 4 → BitVec 8 :=
  match inet_aton 3 cp with
  | some bytes => fun i => bytes.getD i 0
  | none => INADDR_NONE

def htons (port : BitVec 16) : BitVec 16 := port.extractLsb' 0 8 ++ port.extractLsb' 8 8

def ntohs (port : BitVec 16) : BitVec 16 := htons port

theorem ntohs_htons (port : BitVec 16) : ntohs (htons port) = port := by
  unfold ntohs htons
  ext i hi
  simp
  grind

/-! ## Reading what is printed -/

theorem isDigit_of_mem_decimal {n : ℕ} {c : Char} (h : c ∈ decimal n) : c.isDigit = true :=
  Nat.isDigit_of_mem_toDigits (by omega) (by omega) h

theorem head_decimal (n : ℕ) (rest : Text) :
    (decimal n ++ rest).head?.any Char.isDigit = true := by
  cases htext : decimal n with
  | nil => exact absurd htext Nat.toDigits_ne_nil
  | cons c text =>
    have hc : c ∈ decimal n := by simp [htext]
    simp [isDigit_of_mem_decimal hc]

theorem inet_aton_dot {n dots : ℕ} (h : n < 256) (rest : Text) :
    inet_aton (dots + 1) (decimal n ++ '.' :: rest) =
      (inet_aton dots rest).map (BitVec.ofNat 8 n :: ·) := by
  have hread : strtoul (decimal n ++ '.' :: rest) = (n, '.' :: rest) := by
    apply DigitText.strtoul_toDigits
    simp
  rw [inet_aton, if_pos (head_decimal n _), hread]
  simp only
  rw [if_neg (by omega), if_neg (by omega)]

theorem inet_aton_end {n : ℕ} (h : n < 256) :
    inet_aton 0 (decimal n) = some [BitVec.ofNat 8 n] := by
  have hread : strtoul (decimal n) = (n, []) := by
    have hnil : strtoul (decimal n ++ []) = (n, []) := DigitText.strtoul_toDigits n (by simp)
    rwa [List.append_nil] at hnil
  have hhead : (decimal n).head?.any Char.isDigit = true := by
    have hnil := head_decimal n []
    rwa [List.append_nil] at hnil
  rw [inet_aton, if_pos hhead, hread]
  simp only
  rw [if_neg (by omega), if_pos ⟨rfl, by omega⟩]
  simp [bigEndian]

example : inet_aton 3 ['0', 'x', '7', 'f', '.', '1', ' ', 'x'] = some [127, 0, 0, 1] := by
  decide +kernel

namespace InetAddress

def create (port : BitVec 16) (ip : Text) : InetAddress :=
  ⟨inet_addr (c_str ip), ntohs (htons port)⟩

def toPort (a : InetAddress) : BitVec 16 := a.sin_port

theorem mem_toIp {a : InetAddress} {c : Char} (h : c ∈ a.toIp) :
    c.isDigit = true ∨ c = '.' := by
  simp only [toIp, List.mem_append, List.mem_cons] at h
  rcases h with ((h | rfl | h) | rfl | h) | rfl | h
  · exact Or.inl (isDigit_of_mem_decimal h)
  · exact Or.inr rfl
  · exact Or.inl (isDigit_of_mem_decimal h)
  · exact Or.inr rfl
  · exact Or.inl (isDigit_of_mem_decimal h)
  · exact Or.inr rfl
  · exact Or.inl (isDigit_of_mem_decimal h)

theorem c_str_toIp (a : InetAddress) : c_str a.toIp = a.toIp := by
  rw [c_str, List.takeWhile_eq_self_iff]
  intro c hc
  rcases mem_toIp hc with hdigit | rfl
  · simp only [decide_eq_true_eq]
    rintro rfl
    cases hdigit
  · decide

theorem inet_addr_toIp (a : InetAddress) : inet_addr a.toIp = a.sin_addr := by
  have hbyte : ∀ i, (a.sin_addr i).toNat < 256 := fun i => (a.sin_addr i).isLt
  have hread : inet_aton 3 a.toIp =
      some [a.sin_addr 0, a.sin_addr 1, a.sin_addr 2, a.sin_addr 3] := by
    simp only [toIp, List.append_assoc, List.cons_append]
    rw [inet_aton_dot (hbyte 0), inet_aton_dot (hbyte 1), inet_aton_dot (hbyte 2),
      inet_aton_end (hbyte 3)]
    simp
  rw [inet_addr, hread]
  funext i
  fin_cases i <;> rfl

theorem create_toIp (a : InetAddress) : create a.toPort a.toIp = a := by
  rw [create, c_str_toIp, inet_addr_toIp, ntohs_htons, toPort]

theorem notMem_decimal {c : Char} (hc : c.isDigit = false) (n : ℕ) : c ∉ decimal n := by
  intro hmem
  rw [isDigit_of_mem_decimal hmem] at hc
  cases hc

theorem notMem_toIp {c : Char} (hc : c.isDigit = false) (hdot : c ≠ '.') (a : InetAddress) :
    c ∉ a.toIp := by
  intro hmem
  rcases mem_toIp hmem with hdigit | rfl
  · rw [hdigit] at hc
    cases hc
  · exact hdot rfl

theorem toIpPort_injective : Function.Injective toIpPort := by
  intro a b h
  have hparts := (List.append_cons_inj_of_notMem (notMem_toIp (by decide) (by decide) a)
    (notMem_decimal (by decide) _)).mp h
  have hport : a.sin_port = b.sin_port := BitVec.eq_of_toNat_eq (decimal_injective hparts.2.2)
  rw [← create_toIp a, ← create_toIp b, toPort, toPort, hport, hparts.1]

theorem notMem_toIpPort {c : Char} (hc : c.isDigit = false) (hdot : c ≠ '.') (hcolon : c ≠ ':')
    (a : InetAddress) : c ∉ a.toIpPort := by
  simp only [toIpPort, List.mem_append, List.mem_cons, not_or]
  exact ⟨notMem_toIp hc hdot a, hcolon, notMem_decimal hc _⟩

/-- Every address and port, constructed again from the texts that `toIp` and
`toPort` give, is the same; and no other has the text that `toIpPort` gives,
which the buffer of 64 bytes holds. -/
theorem address_read_back (a : InetAddress) :
    create a.toPort a.toIp = a ∧ a.toIpPort.length < 64 ∧
      ∀ b : InetAddress, b.toIpPort = a.toIpPort → b = a := by
  refine ⟨create_toIp a, ?_, fun b h => toIpPort_injective h⟩
  have hlength := a.length_toIpPort_le
  omega

end InetAddress

/-- Servers that have the same name and listen on different addresses never give
two connections the same name, and neither does one server. -/
theorem ServerOptions.connection_names_apart (options others : ServerOptions) (m n : ℕ)
    (hm : m < 2 ^ 31) (hn : n < 2 ^ 31) (hname : options.nameArg = others.nameArg)
    (hapart : options.listenAddr ≠ others.listenAddr ∨ m ≠ n) :
    options.connName m ≠ others.connName n := by
  intro h
  rw [options.connName_eq hm, others.connName_eq hn, hname] at h
  have hend : ('-' :: options.listenAddr.toIpPort) ++ '#' :: decimal m =
      ('-' :: others.listenAddr.toIpPort) ++ '#' :: decimal n := List.append_cancel_left h
  have hfront : '#' ∉ '-' :: options.listenAddr.toIpPort := by
    rw [List.mem_cons, not_or]
    exact ⟨by decide, InetAddress.notMem_toIpPort (by decide) (by decide) (by decide) _⟩
  obtain ⟨haddress, -, hnumber⟩ := (List.append_cons_inj_of_notMem hfront
    (InetAddress.notMem_decimal (by decide) _)).mp hend
  rcases hapart with hne | hne
  · exact hne (InetAddress.toIpPort_injective (List.cons.inj haddress).2)
  · exact hne (decimal_injective hnumber)

/-- The first connections of two servers on one machine. -/
theorem ServerOptions.connection_names_apart_ports :
    (ServerOptions.mk ⟨fun _ => 1, 80⟩ ['s'] 0 false).connName 1 ≠
      (ServerOptions.mk ⟨fun _ => 1, 81⟩ ['s'] 0 false).connName 1 := by
  refine ServerOptions.connection_names_apart _ _ 1 1 (by decide) (by decide) rfl (Or.inl ?_)
  intro h
  exact absurd (congrArg InetAddress.sin_port h) (by decide)

end MuduoCore
