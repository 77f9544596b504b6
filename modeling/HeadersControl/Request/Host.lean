import HeadersControl.Base.Nginx
import HeadersControl.Segments.Memory

/-! # Host validation

`ngx_http_headers_control_validate_host` runs a state machine over the bytes of a
host value and strips the port and one trailing dot.
-/

namespace HeadersControl

open Segments

inductive HostState | hostStart | host | ipLiteral | hostEnd | port
  deriving DecidableEq, Repr

structure HostScan where
  state : HostState
  dotPos : ℕ
  hostLen : ℕ
  port : ℕ
  alloc : Bool
  deriving DecidableEq, Repr

def isUpper (c : UInt8) : Bool := 65 ≤ c ∧ c ≤ 90

def isLower (c : UInt8) : Bool := 97 ≤ c ∧ c ≤ 122

/-- The unreserved characters and sub-delims that both host states accept. -/
def isHostMark (c : UInt8) : Bool := (str "-_~!$&'()*+,;=").contains c

def HostScan.dot (s : HostScan) (i : ℕ) : Option HostScan :=
  if s.dotPos + 1 = i then none else some { s with dotPos := i }

/-- The state `sw_host`. -/
def HostScan.host (s : HostScan) (i : ℕ) (ch : UInt8) : Option HostScan :=
  if isUpper ch then some { s with alloc := true }
  else if isLower ch || isDigit ch then some s
  else if ch = 58 then some { s with hostLen := i, state := .port }
  else if ch = 46 then s.dot i
  else if isHostMark ch || ch = 37 then some s
  else none

/-- The state `sw_host_ip_literal`. -/
def HostScan.ipLiteral (s : HostScan) (i : ℕ) (ch : UInt8) : Option HostScan :=
  if isUpper ch then some { s with alloc := true }
  else if isLower ch || isDigit ch || ch = 58 then some s
  else if ch = 93 then some { s with hostLen := i + 1, state := .hostEnd }
  else if ch = 46 then s.dot i
  else if isHostMark ch then some s
  else none

/-- One byte; `none` is `NGX_DECLINED`. -/
def HostScan.step (s : HostScan) (i : ℕ) (ch : UInt8) : Option HostScan :=
  match s.state with
  | .hostStart =>
      if ch = 91 then some { s with state := .ipLiteral }
      else HostScan.host { s with state := .host } i ch
  | .host => s.host i ch
  | .ipLiteral => s.ipLiteral i ch
  | .hostEnd => if ch = 58 then some { s with state := .port } else none
  | .port =>
      if isDigit ch then
        if 6553 ≤ s.port ∧ (6553 < s.port ∨ 5 < digitVal ch) then none
        else some { s with port := s.port * 10 + digitVal ch }
      else none

def HostScan.loop : HostScan → ℕ → Str → Option HostScan
  | s, _, [] => some s
  | s, i, ch :: rest =>
      match s.step i ch with
      | none => none
      | some s => s.loop (i + 1) rest

/-- The length of the host part, without one trailing dot. -/
def HostScan.trimmedLen (s : HostScan) : ℕ :=
  if s.dotPos + 1 = s.hostLen then s.hostLen - 1 else s.hostLen

/-- The normalised host; it is copied from the pool where it has to be lower-cased. -/
def validateHost (host : Str) (pool : Pool) (alloc : Bool) : Rc × Str × Pool :=
  match HostScan.loop ⟨.hostStart, host.length, host.length, 0, alloc⟩ 0 host with
  | none => (.declined, host, pool)
  | some s =>
      if s.state = .ipLiteral then (.declined, host, pool)
      else if s.trimmedLen = 0 then (.declined, host, pool)
      else if s.alloc then
        match pool.allocBytes with
        | (false, pool) => (.error, host, pool)
        | (true, pool) => (.ok, strlow (host.take s.trimmedLen), pool)
      else (.ok, host.take s.trimmedLen, pool)

example : validateHost (str "Example.COM.:8080") ⟨[], 0, 0, fun _ => false, 0, by simp⟩ false =
    (.ok, str "example.com", ⟨[], 0, 0, fun _ => false, 1, by simp⟩) := by rfl

theorem validateHost_grows (host : Str) (pool : Pool) (alloc : Bool) :
    pool.Grows (validateHost host pool alloc).2.2 := by
  unfold validateHost
  split
  · exact Pool.Grows.refl _
  · split_ifs
    · exact Pool.Grows.refl _
    · exact Pool.Grows.refl _
    · have hg := pool.allocBytes_grows
      generalize pool.allocBytes = res at hg ⊢
      rcases res with ⟨_ | _, q⟩ <;> exact hg
    · exact Pool.Grows.refl _

theorem validateHost_brk (host : Str) (pool : Pool) (alloc : Bool) :
    (validateHost host pool alloc).2.2.brk = pool.brk := by
  unfold validateHost
  split
  · rfl
  · split_ifs
    · rfl
    · rfl
    · cases hb : pool.allocBytes with
      | mk ok q =>
        obtain rfl : pool.spend = q := (Prod.mk.inj hb).2
        cases ok <;> rfl
    · rfl

end HeadersControl
