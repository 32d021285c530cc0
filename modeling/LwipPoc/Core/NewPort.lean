import LwipPoc.Core.Udp.Bind

/-!
# New local ports

`tcp_new_port` of `core/tcp.c` and `udp_new_port` of `core/udp.c` count a `u16_t` up to the next port, come back to
`again` where it is in use, and count how often they did. Of the control blocks they look at nothing but the local
ports. Here the counters are as wide as they are there, and the jumps back are bounded by `fuel`; `udpNewPort`, which
`udp_bind` uses, is what is left of this when the counters do not wrap (`newPort_eq`).
-/

namespace Lwip

open Udp

/-- `TCP_LOCAL_PORT_RANGE_START`. -/
def tcpLocalPortRangeStart : ℕ := 0xc000

/-- `TCP_LOCAL_PORT_RANGE_END`. -/
def tcpLocalPortRangeEnd : ℕ := 0xffff

/-- From `again` on, with `n` conflicts so far: the port, or 0, and the last local port. -/
def newPort (rangeStart rangeEnd : ℕ) (inUse : ℕ → Bool) : ℕ → ℕ → ℕ → Option (ℕ × ℕ)
  | 0, _, _ => none
  | fuel + 1, n, port =>
    let port := if port = rangeEnd then rangeStart else (port + 1) % 2 ^ 16
    if inUse port then
      let n := (n + 1) % 2 ^ 16
      if n > rangeEnd - rangeStart then some (0, port) else newPort rangeStart rangeEnd inUse fuel n port
    else some (port, port)

/-- `tcp_new_port`, with the local ports on the lists, and `tcp_port`. -/
def tcpNewPort (tcpPcbLists : List (List ℕ)) (fuel tcpPort : ℕ) : Option (ℕ × ℕ) :=
  newPort tcpLocalPortRangeStart tcpLocalPortRangeEnd
    (fun port ↦ tcpPcbLists.any fun pcbs ↦ pcbs.any fun localPort ↦ localPort = port) fuel 0 tcpPort

/-- `udp_new_port`, with the local ports on `udp_pcbs`, and `udp_port`. -/
def udpNewPortLoop (udpPcbs : List ℕ) (fuel udpPort : ℕ) : Option (ℕ × ℕ) :=
  newPort udpLocalPortRangeStart udpLocalPortRangeEnd (fun port ↦ udpPcbs.any fun localPort ↦ localPort = port) fuel 0 udpPort

/-- What a search returns is right: a free port of the range, or 0 exactly if there is none. -/
structure PortRight (rangeStart rangeEnd : ℕ) (used : List ℕ) (r : ℕ) : Prop where
  free : r ≠ 0 → (rangeStart ≤ r ∧ r ≤ rangeEnd) ∧ r ∉ used
  zero : r = 0 ↔ ∀ q, rangeStart ≤ q ∧ q ≤ rangeEnd → q ∈ used

variable {used : List ℕ} {inUse : ℕ → Bool} {port n : ℕ}

/-- The step of a `u16_t` in the range. -/
theorem nextPort_eq (h : InRange port) :
    (if port = udpLocalPortRangeEnd then udpLocalPortRangeStart else (port + 1) % 2 ^ 16) = nextPort port := by
  have hend : udpLocalPortRangeEnd = 65535 := rfl
  have hle := h.2
  rw [nextPort]
  split_ifs with hlast
  · rfl
  · exact Nat.mod_eq_of_lt (by omega)

/-- **One conflict is counted for each port**: with `n` of them counted, as many ports as are left in the range may be
found in use, and none of the counters wraps. -/
theorem newPort_eq (huse : ∀ q, inUse q = true ↔ q ∈ used) (fuel : ℕ) (h : InRange port)
    (hn : n ≤ udpLocalPortRangeEnd - udpLocalPortRangeStart) :
    newPort udpLocalPortRangeStart udpLocalPortRangeEnd inUse
        (udpLocalPortRangeEnd - udpLocalPortRangeStart - n + 1 + fuel) n port =
      some (udpNewPort used (udpLocalPortRangeEnd - udpLocalPortRangeStart - n) port) := by
  have hrange : udpLocalPortRangeEnd - udpLocalPortRangeStart = 16383 := rfl
  rw [hrange] at hn ⊢
  generalize hleft : 16383 - n = left
  induction left generalizing n port with
  | zero =>
    rw [Nat.zero_add, Nat.add_comm, newPort, nextPort_eq h, udpNewPort, hrange]
    dsimp only
    by_cases hused : nextPort port ∈ used
    · rw [if_pos ((huse _).2 hused), if_pos hused, if_pos (by omega)]
    · rw [if_neg (mt (huse _).1 hused), if_neg hused]
  | succ left ih =>
    rw [Nat.add_right_comm (left + 1), newPort, nextPort_eq h, udpNewPort, hrange]
    dsimp only
    by_cases hused : nextPort port ∈ used
    · rw [if_pos ((huse _).2 hused), if_pos hused, if_neg (by omega), Nat.mod_eq_of_lt (by omega)]
      rw [← ih (nextPort_inRange h) (n := n + 1) (by omega) (by omega), Nat.add_right_comm left 1]
    · rw [if_neg (mt (huse _).1 hused), if_neg hused]

/-- The whole search. -/
theorem newPort_right (huse : ∀ q, inUse q = true ↔ q ∈ used) (fuel : ℕ) (h : InRange port) :
    ∃ r port', newPort udpLocalPortRangeStart udpLocalPortRangeEnd inUse (2 ^ 14 + fuel) 0 port = some (r, port') ∧
      PortRight udpLocalPortRangeStart udpLocalPortRangeEnd used r := by
  have hspec := udpNewPort_spec used (udpLocalPortRangeEnd - udpLocalPortRangeStart) h
  refine ⟨_, _, newPort_eq huse fuel h (Nat.zero_le _), fun hr ↦ ?_, mem_of_udpNewPort h, fun hall ↦ ?_⟩
  · exact (hspec.2.resolve_left hr).symm
  · rcases hspec.2 with hzero | ⟨hfree, hrange⟩
    · exact hzero
    · exact absurd (hall _ hrange) hfree

/-- **A new local port** is searched for at most once for each port of the range. It is a port of the range that no
control block on a list has, or 0 exactly if there is no such port. -/
theorem newPorts_right (tcpPcbLists : List (List ℕ)) (udpPcbs : List ℕ) (fuel : ℕ) {tcpPort udpPort : ℕ}
    (htcp : tcpLocalPortRangeStart ≤ tcpPort ∧ tcpPort ≤ tcpLocalPortRangeEnd)
    (hudp : udpLocalPortRangeStart ≤ udpPort ∧ udpPort ≤ udpLocalPortRangeEnd) :
    (∃ r port, tcpNewPort tcpPcbLists (2 ^ 14 + fuel) tcpPort = some (r, port) ∧
      PortRight tcpLocalPortRangeStart tcpLocalPortRangeEnd tcpPcbLists.flatten r) ∧
    ∃ r port, udpNewPortLoop udpPcbs (2 ^ 14 + fuel) udpPort = some (r, port) ∧
      PortRight udpLocalPortRangeStart udpLocalPortRangeEnd udpPcbs r := by
  refine ⟨newPort_right (fun q ↦ ?_) fuel htcp, newPort_right (fun q ↦ ?_) fuel hudp⟩
  · rw [List.any_eq_true, List.mem_flatten]
    refine exists_congr fun pcbs ↦ and_congr_right fun _ ↦ ?_
    rw [List.any_eq_true]
    simp
  · rw [List.any_eq_true]
    simp

/-- With the first two ports in use, from the last one. -/
theorem newPorts_right_last :
    (∃ r port, tcpNewPort [[0xc000], [], [0xc001, 80]] (2 ^ 14 + 0) 0xffff = some (r, port) ∧
      PortRight tcpLocalPortRangeStart tcpLocalPortRangeEnd [[0xc000], [], [0xc001, 80]].flatten r) ∧
    ∃ r port, udpNewPortLoop [53, 0xc000] (2 ^ 14 + 0) 0xc000 = some (r, port) ∧
      PortRight udpLocalPortRangeStart udpLocalPortRangeEnd [53, 0xc000] r :=
  newPorts_right [[0xc000], [], [0xc001, 80]] [53, 0xc000] 0 (by decide) (by decide)

end Lwip
