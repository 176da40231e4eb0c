import Mathlib.Data.List.AList
import Mathlib.Data.Nat.Digits.Defs
import Mathlib.Tactic

/-!
# The names and the loops of a server

`TcpServer::newConnection` names a connection after the server, its address and
a running number, formatted into a buffer of 64 bytes, and takes the next loop
of the pool for it. A text is the list of its characters. No name is cut off by
the buffer, so connections with different numbers have different names.
-/

namespace MuduoCore

abbrev Text := List Char

/-- What `%u` and `%d` print of a number that is not negative. -/
def decimal (n : ℕ) : Text := Nat.toDigits 10 n

theorem decimal_injective : Function.Injective decimal := by
  intro m n h
  rw [← Nat.ofDigitChars_ten_toDigits (n := m), ← Nat.ofDigitChars_ten_toDigits (n := n)]
  exact congrArg (fun text => Nat.ofDigitChars 10 text 0) h

theorem length_decimal_le {n e : ℕ} (he : 0 < e) (h : n < 10 ^ e) : (decimal n).length ≤ e :=
  Nat.toDigits_length 10 n e he h

/-- `snprintf` into a buffer of `size` bytes, the last of them for the NUL. -/
def snprintf (size : ℕ) (text : Text) : Text := text.take (size - 1)

/-- The two members of `sockaddr_in`: the four bytes of the address as they
stand in memory, and the port after `ntohs`. -/
structure InetAddress where
  sin_addr : Fin 4 → BitVec 8
  sin_port : BitVec 16

namespace InetAddress

/-- What `inet_ntop` prints. -/
def toIp (a : InetAddress) : Text :=
  decimal (a.sin_addr 0).toNat ++ '.' :: decimal (a.sin_addr 1).toNat ++
    '.' :: decimal (a.sin_addr 2).toNat ++ '.' :: decimal (a.sin_addr 3).toNat

/-- The end of the buffer is not reached: `length_toIpPort_le`. -/
def toIpPort (a : InetAddress) : Text := a.toIp ++ ':' :: decimal a.sin_port.toNat

theorem length_toIpPort_le (a : InetAddress) : a.toIpPort.length ≤ 21 := by
  have hbyte : ∀ i, (decimal (a.sin_addr i).toNat).length ≤ 3 := by
    intro i
    apply length_decimal_le (by omega)
    have hlt := (a.sin_addr i).isLt
    omega
  have hport : (decimal a.sin_port.toNat).length ≤ 5 := by
    apply length_decimal_le (by omega)
    have hlt := a.sin_port.isLt
    omega
  simp only [toIpPort, toIp, List.length_append, List.length_cons]
  have h0 := hbyte 0
  have h1 := hbyte 1
  have h2 := hbyte 2
  have h3 := hbyte 3
  omega

end InetAddress

/-! ## The pool of loops -/

/-- `next_` is the index of a loop as soon as there are any. -/
structure EventLoopThreadPool (T : Type*) where
  baseLoop_ : T
  numThreads_ : ℤ
  loops_ : List T
  next_ : ℕ
  inRange : next_ < max 1 loops_.length

namespace EventLoopThreadPool

variable {T : Type*} (p : EventLoopThreadPool T)

/-- The constructor and `setThreadNum`. -/
def create (baseLoop : T) (numThreads : ℤ) : EventLoopThreadPool T :=
  ⟨baseLoop, numThreads, [], 0, by simp⟩

/-- One round of `start`. -/
def push_back (loop : T) : EventLoopThreadPool T where
  baseLoop_ := p.baseLoop_
  numThreads_ := p.numThreads_
  loops_ := p.loops_ ++ [loop]
  next_ := p.next_
  inRange := by
    have h := p.inRange
    rw [List.length_append, List.length_singleton]
    omega

theorem next_lt (h : p.loops_ ≠ []) : p.next_ < p.loops_.length := by
  have hrange := p.inRange
  have hpos := List.length_pos_iff.mpr h
  omega

/-- The loops take turns; without any of its own the pool lends the base loop. -/
def getNextLoop : T × EventLoopThreadPool T :=
  if h : p.loops_ = [] then (p.baseLoop_, p)
  else
    (p.loops_.get ⟨p.next_, p.next_lt h⟩, {
      p with
      next_ := if p.loops_.length ≤ p.next_ + 1 then 0 else p.next_ + 1
      inRange := by
        have hpos := List.length_pos_iff.mpr h
        split_ifs <;> omega })

theorem getNextLoop_loops : p.getNextLoop.2.loops_ = p.loops_ := by
  by_cases h : p.loops_ = []
  · rw [getNextLoop, dif_pos h]
  · rw [getNextLoop, dif_neg h]

theorem getNextLoop_mem :
    (p.loops_ = [] ∧ p.getNextLoop.1 = p.baseLoop_) ∨ p.getNextLoop.1 ∈ p.loops_ := by
  by_cases h : p.loops_ = []
  · left
    simp [getNextLoop, h]
  · right
    rw [getNextLoop, dif_neg h]
    exact List.get_mem _ _

end EventLoopThreadPool

/-! ## The names -/

/-- What a server is constructed with, and the setters called before `start`. -/
structure ServerOptions where
  listenAddr : InetAddress
  nameArg : Text
  numThreads : ℤ
  writeCompleteCallback : Bool

namespace ServerOptions

variable (options : ServerOptions)

/-- `connName` of `newConnection`, for the running number `nextConnId_`. -/
def connName (nextConnId : ℕ) : Text :=
  options.nameArg ++
    snprintf 64 ('-' :: options.listenAddr.toIpPort ++ '#' :: decimal nextConnId)

/-- An `int` that is not negative has at most ten digits, so the buffer holds
all of the name. -/
theorem connName_eq {n : ℕ} (h : n < 2 ^ 31) : options.connName n =
    options.nameArg ++ ('-' :: options.listenAddr.toIpPort ++ '#' :: decimal n) := by
  have haddr := options.listenAddr.length_toIpPort_le
  have hid : (decimal n).length ≤ 10 := length_decimal_le (by omega) (by omega)
  rw [connName, snprintf, List.take_of_length_le]
  simp only [List.length_append, List.length_cons]
  omega

theorem connName_injective {m n : ℕ} (hm : m < 2 ^ 31) (hn : n < 2 ^ 31)
    (h : options.connName m = options.connName n) : m = n := by
  rw [options.connName_eq hm, options.connName_eq hn] at h
  have hend := List.append_cancel_left (List.append_cancel_left h)
  exact decimal_injective (List.cons.inj hend).2

end ServerOptions
end MuduoCore
