import LwipPoc.Core.PbufBytes
import LwipPoc.Foundation.Execution
import Mathlib.Data.List.ReduceOption

/-!
# `lwip_recvfrom` on a TCP socket

One thread calls `lwip_recvfrom` and `lwip_close` of `api/sockets.c`, while the tcpip thread posts chains of pbufs to the
`recvmbox` of the netconn (`recv_tcp`), the end of the stream, or an error (`err_tcp`). Both go on from one access to what
they share to the next: `RecvPc` and `TcpipPc` say which one comes next.

* A chain goes by the number of chains that were delivered before it.
* `off` is the number of bytes that are in `mem`. It is an `int`, whose overflow C leaves undefined; here it is a number,
  and runs are looked at in which it stays below 2^31.
* A post that fails leaves the chain with TCP, which presents it later; so it is no step. The `NULL` of `err_tcp` is not
  presented again.
* What is passed to `netconn_recved` is kept in a list. `tcp_recved` is called in other places too, which do not count.

For peeked data the receive window is updated as well (`recvfrom_stream`).
-/

namespace Lwip.Sockets

open Core

/-- A chain in `recvmbox`: its number, its pbufs, and `PBUF_FLAG_PUSH` of the first one. -/
structure RecvChain where
  id : ℕ
  pbufs : List Pbuf
  push : Bool
  deriving DecidableEq, Repr

/-- `len`, and `MSG_PEEK` and `MSG_DONTWAIT` in `flags`. -/
structure RecvArgs where
  len : ℕ
  peek : Bool
  dontwait : Bool
  deriving DecidableEq, Repr

/-- The variables of `lwip_recvfrom`: the `len` that is left, and the first `off` bytes of `mem`. -/
structure RecvCall where
  args : RecvArgs
  len : ℕ
  mem : List (BitVec 8)
  deriving DecidableEq, Repr

/-- What a call returned, and the bytes in `mem`. -/
structure RecvReturn where
  args : RecvArgs
  ret : ℤ
  mem : List (BitVec 8)
  deriving DecidableEq, Repr

/-- Where the thread is: at the top of the loop, in `netconn_recv_tcp_pbuf`, waiting for the `recvmbox`, with a buffer, or
in `lwip_close` before `free_socket`. -/
inductive RecvPc where
  | idle
  | top (c : RecvCall)
  | recv (c : RecvCall)
  | fetch (c : RecvCall)
  | copy (c : RecvCall)
  | closing
  | closed
  deriving DecidableEq, Repr

/-- Where the tcpip thread is: before the event for a post, or before the post of `err_tcp`. -/
inductive TcpipPc where
  | idle
  | event
  | null
  deriving DecidableEq, Repr

/-- The buffers of a socket and its netconn, and what became of the chains. -/
structure RecvBuffers where
  /-- `NULL` is the end of the stream. -/
  recvmbox : Option (List (Option RecvChain))
  lastdata : Option RecvChain
  lastoffset : ℕ
  /-- The bytes of the chains that were delivered. -/
  delivered : List (List (BitVec 8))
  /-- The chains that were freed. -/
  freed : List ℕ
  /-- What was passed to `netconn_recved`. -/
  recved : List ℕ
  calls : List RecvReturn
  deriving DecidableEq, Repr

/-- The socket with its netconn. -/
structure RecvState extends RecvBuffers where
  nonblocking : Bool
  lastErr : ErrT
  /-- An `s16_t`. -/
  rcvevent : BitVec 16
  pc : RecvPc
  tcpip : TcpipPc
  deriving DecidableEq, Repr

/-- A new socket. -/
def RecvState.init (nonblocking : Bool) : RecvState :=
  { recvmbox := some [], lastdata := none, lastoffset := 0, delivered := [], freed := [], recved := [], calls := [],
    nonblocking, lastErr := .ok, rcvevent := 0, pc := .idle, tcpip := .idle }

/-- What happens. -/
inductive RecvLabel where
  /-- A call of `lwip_recvfrom`. -/
  | call (args : RecvArgs)
  /-- A call of `lwip_close`. -/
  | close
  /-- The thread goes on. -/
  | run
  /-- `recv_tcp` with a chain. -/
  | deliver (pbufs : List Pbuf) (push : Bool)
  /-- `recv_tcp` with `NULL`. -/
  | fin
  /-- `API_EVENT` for what was posted. -/
  | event
  /-- `err_tcp`. -/
  | error (err : ErrT)
  /-- The post of `err_tcp`, and whether it succeeds. -/
  | null (posted : Bool)
  deriving DecidableEq, Repr

/-- `ERR_IS_FATAL`. -/
def errIsFatal : ErrT → Bool
  | .abrt | .rst | .clsd | .conn | .arg | .netif => true
  | _ => false

namespace RecvState

variable (s : RecvState)

/-- `lwip_recvfrom` returns `ret`; if there are bytes in `mem`, the receive window is updated. -/
def returns (c : RecvCall) (ret : ℤ) : RecvState :=
  { s with
    pc := .idle
    recved := if 0 < c.mem.length then s.recved ++ [c.mem.length] else s.recved
    calls := s.calls ++ [⟨c.args, ret, c.mem⟩] }

/-- The loop is left with no buffer: what there is, or else an error. -/
def leave (c : RecvCall) (ret : ℤ) : RecvState := s.returns c (if 0 < c.mem.length then c.mem.length else ret)

/-- The return value for an error of `netconn_recv_tcp_pbuf`. -/
def errRet (err : ErrT) : ℤ := if err = .clsd then 0 else -1

/-- `netconn_recv_data` has got `buf` from the `recvmbox`. -/
def fetched (c : RecvCall) (buf : Option RecvChain) (mbox : List (Option RecvChain)) : RecvState :=
  let s' := { s with recvmbox := some mbox, rcvevent := s.rcvevent - 1 }
  match buf with
  | some b => { s' with lastdata := some b, pc := .copy c }
  | none => { s' with lastErr := if errIsFatal s.lastErr then s.lastErr else .clsd }.leave c (errRet .clsd)

/-- `buflen` and `copylen`. -/
def buflen (b : RecvChain) : ℕ := (pbufTotLen b.pbufs + 2 ^ 16 - s.lastoffset) % 2 ^ 16
def copylen (b : RecvChain) (c : RecvCall) : ℕ := if s.buflen b < c.len then s.buflen b else c.len

/-- The call behind `pbuf_copy_partial`. -/
def copied (b : RecvChain) (c : RecvCall) : RecvCall :=
  { c with
    len := c.len - s.copylen b c
    mem := c.mem ++
      (pbufCopyPartial b.pbufs (List.replicate (s.copylen b c) 0) (s.copylen b c) s.lastoffset).1 }

/-- `done`. -/
def isDone (b : RecvChain) (c : RecvCall) : Bool :=
  (s.copied b c).len = 0 || b.push || decide (s.rcvevent.toInt ≤ 0) || c.args.peek

/-- The buffer is kept or freed. -/
def release (b : RecvChain) (c : RecvCall) : RecvState :=
  if c.args.peek then s
  else if 0 < s.buflen b - s.copylen b c then { s with lastoffset := (s.lastoffset + s.copylen b c) % 2 ^ 16 }
  else { s with lastdata := none, lastoffset := 0, freed := s.freed ++ [b.id] }

/-- The part of the loop behind the buffer. -/
def copy (b : RecvChain) (c : RecvCall) : RecvState :=
  if s.isDone b c then (s.release b c).returns (s.copied b c) (s.copied b c).mem.length
  else { s.release b c with pc := .top (s.copied b c) }

/-- The thread goes on, unless it waits. -/
def run : Option RecvState :=
  match s.pc with
  | .top c =>
    if s.lastdata ≠ none then some { s with pc := .copy c }
    else if (c.args.dontwait ∨ s.nonblocking) ∧ s.rcvevent.toInt ≤ 0 then some (s.leave c (-1))
    else some { s with pc := .recv c }
  | .recv c => if errIsFatal s.lastErr then some (s.leave c (errRet s.lastErr)) else some { s with pc := .fetch c }
  | .fetch c =>
    match s.recvmbox with
    | some (buf :: mbox) => some (s.fetched c buf mbox)
    | _ => none
  | .copy c => s.lastdata.map fun b ↦ s.copy b c
  | .closing =>
    some { s with
      pc := .closed, lastdata := none, lastoffset := 0, freed := s.freed ++ (s.lastdata.map RecvChain.id).toList }
  | .idle | .closed => none

/-- A chain or `NULL` is put into the `recvmbox`. -/
def post (buf : Option RecvChain) : RecvState := { s with recvmbox := s.recvmbox.map (· ++ [buf]) }

/-- `recv_tcp` with a chain. -/
def recvTcp (pbufs : List Pbuf) (push : Bool) : RecvState :=
  let s' := { s with delivered := s.delivered ++ [pbufBytes pbufs] }
  if s.recvmbox = none then { s' with freed := s.freed ++ [s.delivered.length] }
  else { s'.post (some ⟨s.delivered.length, pbufs, push⟩) with tcpip := .event }

/-- `netconn_drain`: the chains in the `recvmbox` are freed, and there is none any more. -/
def drain : RecvState :=
  { s with recvmbox := none, freed := s.freed ++ ((s.recvmbox.getD []).reduceOption.map RecvChain.id) }

/-- A step. -/
def step : RecvLabel → RecvState → Option RecvState
  | .call args, s => if s.pc = .idle then some { s with pc := .top ⟨args, args.len, []⟩ } else none
  | .close, s => if s.pc = .idle then some { s.drain with pc := .closing } else none
  | .run, s => s.run
  | .deliver pbufs push, s =>
    if s.tcpip = .idle ∧ s.pc ≠ .closed ∧ Totals pbufs ∧ (pbufBytes pbufs).length < 2 ^ 16 then
      some (s.recvTcp pbufs push)
    else none
  | .fin, s =>
    if s.tcpip = .idle ∧ s.pc ≠ .closed then
      if s.recvmbox = none then some s else some { s.post none with tcpip := .event }
    else none
  | .event, s => if s.tcpip = .event then some { s with rcvevent := s.rcvevent + 1, tcpip := .idle } else none
  | .error err, s =>
    if s.tcpip = .idle ∧ s.pc ≠ .closed then
      some { s with lastErr := err, rcvevent := s.rcvevent + 1, tcpip := .null }
    else none
  | .null posted, s =>
    if s.tcpip = .null then some { if posted then s.post none else s with tcpip := .idle } else none

end RecvState

/-! ### The stream -/

/-- The bytes of a chain. -/
def RecvChain.bytes (b : RecvChain) : List (BitVec 8) := pbufBytes b.pbufs

namespace RecvBuffers

variable (d : RecvBuffers)

/-- The chains in the `recvmbox`. -/
def queued : List RecvChain := (d.recvmbox.getD []).reduceOption

/-- What is left of `lastdata`. -/
def rest : List (BitVec 8) := ((d.lastdata.map RecvChain.bytes).getD []).drop d.lastoffset

/-- What was delivered. -/
def stream : List (BitVec 8) := d.delivered.flatten

/-- **What the calls without `MSG_PEEK` returned.** -/
def taken : List (BitVec 8) := d.calls.flatMap fun r ↦ if r.args.peek then [] else r.mem

/-- The chains that are not yet freed. -/
def held : List RecvChain := d.lastdata.toList ++ d.queued

end RecvBuffers

/-- Only calls with `MSG_PEEK` came after a call with `MSG_PEEK`. -/
def Peeked (calls : List RecvReturn) (r : RecvReturn) : Prop :=
  ∃ pre mid, calls = pre ++ r :: mid ∧ r.args.peek ∧ ∀ x ∈ mid, x.args.peek

/-- **A call returns what was peeked at** before it, as far as that is not more than it asks for. -/
def PeeksRight (calls : List RecvReturn) : Prop :=
  ∀ pre x post, calls = pre ++ x :: post → x.args.peek = false → ∀ r, Peeked pre r → r.mem.length ≤ x.args.len →
    r.mem <+: x.mem

variable {calls : List RecvReturn} {r x : RecvReturn} {d : RecvBuffers} {s s' : RecvState} {c : RecvCall} {b : RecvChain}
  {mem bs : List (BitVec 8)}

theorem peeked_concat (h : Peeked (calls ++ [x]) r) : x.args.peek ∧ (r = x ∨ Peeked calls r) := by
  obtain ⟨pre, mid, heq, hr, hmid⟩ := h
  rcases mid.eq_nil_or_concat with rfl | ⟨mid, y, rfl⟩
  · obtain ⟨rfl, hx⟩ := List.append_inj' heq rfl
    cases hx
    exact ⟨hr, .inl rfl⟩
  · rw [List.concat_eq_append, ← List.cons_append, ← List.append_assoc] at heq
    obtain ⟨rfl, hx⟩ := List.append_inj' heq rfl
    cases hx
    exact ⟨hmid _ (by simp), .inr ⟨pre, mid, rfl, hr, fun z hz ↦ hmid z (by simp [hz])⟩⟩

theorem PeeksRight.concat (h : PeeksRight calls)
    (hx : x.args.peek = false → ∀ r, Peeked calls r → r.mem.length ≤ x.args.len → r.mem <+: x.mem) :
    PeeksRight (calls ++ [x]) := by
  intro pre y post heq
  rcases post.eq_nil_or_concat with rfl | ⟨post, z, rfl⟩
  · obtain ⟨rfl, hy⟩ := List.append_inj' heq rfl
    cases hy
    exact hx
  · rw [List.concat_eq_append, ← List.cons_append, ← List.append_assoc] at heq
    exact h pre y post (List.append_inj' heq rfl).1

/-- The totals of a chain are right, and fit. -/
def RecvChain.Whole (b : RecvChain) : Prop := Totals b.pbufs ∧ b.bytes.length < 2 ^ 16

/-- **The buffers are in order**; `mem` is what a call without `MSG_PEEK` has got up to now. -/
structure InOrder (d : RecvBuffers) (mem : List (BitVec 8)) : Prop where
  whole : ∀ b ∈ d.held, b.Whole
  /-- Every chain is held once or was freed once. -/
  once : (d.freed ++ d.held.map RecvChain.id).Perm (List.range d.delivered.length)
  offset : d.lastoffset ≤ ((d.lastdata.map RecvChain.bytes).getD []).length
  /-- What was taken, what is left of `lastdata`, and what waits in the `recvmbox`. -/
  whole_stream : d.recvmbox ≠ none → d.taken ++ mem ++ d.rest ++ d.queued.flatMap RecvChain.bytes = d.stream
  taken_begins : d.taken ++ mem <+: d.stream
  peeked : d.recvmbox ≠ none → ∀ r, Peeked d.calls r → r.mem <+: mem ++ d.rest
  right : PeeksRight d.calls
  recved : d.recved.sum = (d.calls.map fun r ↦ r.mem.length).sum

/-- A call on its way. -/
def RecvCall.Going (c : RecvCall) : Prop := c.args.len = c.len + c.mem.length ∧ (c.args.peek → c.mem = [])

/-- What a call contributes to the stream. -/
def RecvCall.out (c : RecvCall) : List (BitVec 8) := if c.args.peek then [] else c.mem

/-- **The invariant.** -/
def RecvInv (s : RecvState) : Prop :=
  match s.pc with
  | .idle => InOrder s.toRecvBuffers [] ∧ s.recvmbox ≠ none
  | .top c => InOrder s.toRecvBuffers c.out ∧ s.recvmbox ≠ none ∧ c.Going ∧ (c.mem ≠ [] → s.lastdata = none)
  | .recv c | .fetch c => InOrder s.toRecvBuffers c.out ∧ s.recvmbox ≠ none ∧ c.Going ∧ s.lastdata = none
  | .copy c => InOrder s.toRecvBuffers c.out ∧ s.recvmbox ≠ none ∧ c.Going
  | .closing => InOrder s.toRecvBuffers [] ∧ s.recvmbox = none
  | .closed => InOrder s.toRecvBuffers [] ∧ s.recvmbox = none ∧ s.lastdata = none

theorem RecvInv.init (nonblocking : Bool) : RecvInv (.init nonblocking) := by
  refine ⟨⟨nofun, .nil, Nat.zero_le _, fun _ ↦ rfl, List.nil_prefix, ?_, ?_, rfl⟩, nofun⟩
  · rintro - r ⟨pre, mid, heq, -⟩
    simp [RecvState.init] at heq
  · intro pre x post heq
    simp [RecvState.init] at heq

/-! ### Returning -/

/-- **A call returns**, in order if it took all that it asked for or all that was left of `lastdata`. -/
theorem InOrder.returns (h : InOrder s.toRecvBuffers c.out) (hopen : s.recvmbox ≠ none)
    (hlen : c.args.len = c.len + c.mem.length) (hpeek : c.args.peek → c.mem <+: s.rest)
    (hall : c.args.peek = false → c.len = 0 ∨ s.rest = []) (ret : ℤ) :
    RecvInv (s.returns c ret) := by
  have htaken : (s.returns c ret).taken = s.taken ++ c.out := by
    rw [RecvBuffers.taken, RecvState.returns, List.flatMap_append, List.flatMap_singleton]
    rfl
  refine ⟨⟨h.whole, h.once, h.offset, fun ho ↦ ?_, ?_, fun ho r hr ↦ ?_, ?_, ?_⟩, hopen⟩
  · rw [htaken, List.append_nil]
    exact h.whole_stream ho
  · rw [htaken, List.append_nil]
    exact h.taken_begins
  · obtain ⟨hx, rfl | hr⟩ := peeked_concat hr
    · exact hpeek hx
    · have hbegins := h.peeked ho r hr
      rwa [RecvCall.out, if_pos hx] at hbegins
  · refine h.right.concat fun hx r hr hle ↦ ?_
    have hbegins := h.peeked hopen r hr
    rw [RecvCall.out, if_neg (by simpa using hx)] at hbegins
    rcases hall hx with hzero | hrest
    · have hle : r.mem.length ≤ c.args.len := hle
      exact List.prefix_of_prefix_length_le hbegins (List.prefix_append _ _) (show _ ≤ c.mem.length by omega)
    · rwa [hrest, List.append_nil] at hbegins
  · rw [RecvState.returns]
    dsimp only
    rw [List.map_append, List.sum_append, ← h.recved, List.map_singleton, List.sum_singleton]
    change _ = _ + c.mem.length
    split_ifs with hpos
    · rw [List.sum_append, List.sum_singleton]
    · omega

/-! ### Copying -/

theorem rest_eq (hb : d.lastdata = some b) : d.rest = b.bytes.drop d.lastoffset := by
  rw [RecvBuffers.rest, hb]
  rfl

theorem held_eq (hb : d.lastdata = some b) : d.held = b :: d.queued := by
  rw [RecvBuffers.held, hb]
  rfl

theorem InOrder.offset_le (h : InOrder d mem) (hb : d.lastdata = some b) : d.lastoffset ≤ b.bytes.length := by
  have hle := h.offset
  rwa [hb] at hle

theorem InOrder.whole_lastdata (h : InOrder d mem) (hb : d.lastdata = some b) : b.Whole :=
  h.whole b (by simp [held_eq hb])

theorem buflen_eq (h : InOrder s.toRecvBuffers mem) (hb : s.lastdata = some b) : s.buflen b = s.rest.length := by
  obtain ⟨htotals, hlen⟩ := h.whole_lastdata hb
  have hle := h.offset_le hb
  have htot : pbufTotLen b.pbufs = b.bytes.length := htotals.totLen_eq
  rw [RecvState.buflen, rest_eq hb, List.length_drop, htot]
  omega

theorem copylen_eq (h : InOrder s.toRecvBuffers mem) (hb : s.lastdata = some b) (c : RecvCall) :
    s.copylen b c = min c.len s.rest.length := by
  rw [RecvState.copylen, buflen_eq h hb]
  split_ifs <;> omega

/-- The bytes that are copied are the first ones of what is left. -/
theorem copied_mem (h : InOrder s.toRecvBuffers mem) (hb : s.lastdata = some b) (c : RecvCall) :
    (s.copied b c).mem = c.mem ++ s.rest.take (s.copylen b c) := by
  have hk := copylen_eq h hb c
  have hlen : (((pbufBytes b.pbufs).drop s.lastoffset).take (s.copylen b c)).length = s.copylen b c := by
    rw [← RecvChain.bytes, ← rest_eq hb, List.length_take]
    omega
  rw [RecvState.copied]
  dsimp only
  rw [pbufCopyPartial_eq (by rw [hlen, List.length_replicate]), hlen, List.drop_replicate, Nat.sub_self,
    List.replicate_zero, List.append_nil, rest_eq hb]
  rfl

theorem copied_args (s : RecvState) (b : RecvChain) (c : RecvCall) : (s.copied b c).args = c.args := by
  have hargs : ∀ n bs, ({ c with len := n, mem := bs } : RecvCall).args = c.args := fun _ _ ↦ rfl
  exact hargs _ _

theorem copied_left (s : RecvState) (b : RecvChain) (c : RecvCall) : (s.copied b c).len = c.len - s.copylen b c := by
  have hlen : ∀ n bs, ({ c with len := n, mem := bs } : RecvCall).len = n := fun _ _ ↦ rfl
  exact hlen _ _

/-- What is copied is no longer asked for. -/
theorem copied_len (h : InOrder s.toRecvBuffers mem) (hb : s.lastdata = some b) (c : RecvCall) :
    (s.copied b c).len + (s.copied b c).mem.length = c.len + c.mem.length := by
  have hk := copylen_eq h hb c
  rw [copied_mem h hb, List.length_append, List.length_take, copied_left]
  omega

/-! ### The buffer behind the copy -/

/-- The buffer stays, with an offset, or goes. -/
theorem release_cases (s : RecvState) (b : RecvChain) (c : RecvCall) : s.release b c = s ∨
    (∃ n, s.release b c = { s with lastoffset := n }) ∨
    s.release b c = { s with lastdata := none, lastoffset := 0, freed := s.freed ++ [b.id] } := by
  rw [RecvState.release]
  split_ifs
  · exact .inl rfl
  · exact .inr (.inl ⟨_, rfl⟩)
  · exact .inr (.inr rfl)

theorem release_frame (s : RecvState) (b : RecvChain) (c : RecvCall) : (s.release b c).recvmbox = s.recvmbox ∧
    (s.release b c).delivered = s.delivered ∧ (s.release b c).recved = s.recved ∧ (s.release b c).calls = s.calls := by
  rcases release_cases s b c with h | ⟨n, h⟩ | h <;>
    rw [h] <;>
    exact ⟨rfl, rfl, rfl, rfl⟩

section release

variable (h : InOrder s.toRecvBuffers c.mem) (hb : s.lastdata = some b) (hpeek : c.args.peek = false)
include h hb hpeek

/-- A buffer that is not used up is kept. -/
theorem release_kept (hleft : s.copylen b c < s.rest.length) :
    ∃ n, n = s.copylen b c ∧ s.release b c = { s with lastoffset := s.lastoffset + n } := by
  obtain ⟨-, hlen⟩ := h.whole_lastdata hb
  refine ⟨_, rfl, ?_⟩
  rw [rest_eq hb, List.length_drop] at hleft
  rw [RecvState.release, if_neg (by simp [hpeek]), buflen_eq h hb, rest_eq hb, List.length_drop, if_pos (by omega),
    Nat.mod_eq_of_lt (by omega)]

/-- A buffer that is used up is freed. -/
theorem release_freed (hall : s.rest.length ≤ s.copylen b c) :
    s.release b c = { s with lastdata := none, lastoffset := 0, freed := s.freed ++ [b.id] } := by
  rw [RecvState.release, if_neg (by simp [hpeek]), buflen_eq h hb, if_neg (by omega)]

theorem release_rest : (s.release b c).rest = s.rest.drop (s.copylen b c) := by
  rcases Nat.lt_or_ge (s.copylen b c) s.rest.length with hleft | hall
  · obtain ⟨n, hn, hkept⟩ := release_kept h hb hpeek hleft
    rw [hkept, rest_eq hb, List.drop_drop, ← hn]
    exact rest_eq hb
  · rw [release_freed h hb hpeek hall, List.drop_eq_nil_of_le hall]
    rfl

theorem release_offset :
    (s.release b c).lastoffset ≤ (((s.release b c).lastdata.map RecvChain.bytes).getD []).length := by
  rcases Nat.lt_or_ge (s.copylen b c) s.rest.length with hleft | hall
  · obtain ⟨n, hn, hkept⟩ := release_kept h hb hpeek hleft
    rw [hkept]
    rw [rest_eq hb, List.length_drop] at hleft
    dsimp only
    rw [hb]
    exact (show _ ≤ b.bytes.length by omega)
  · rw [release_freed h hb hpeek hall]
    exact Nat.zero_le _

/-- The chain of a buffer that is used up goes from those that are held to those that were freed. -/
theorem release_once : (∀ b' ∈ (s.release b c).held, b' ∈ s.held) ∧
    ((s.release b c).freed ++ (s.release b c).held.map RecvChain.id).Perm (s.freed ++ s.held.map RecvChain.id) := by
  rcases Nat.lt_or_ge (s.copylen b c) s.rest.length with hleft | hall
  · obtain ⟨n, -, hkept⟩ := release_kept h hb hpeek hleft
    rw [hkept]
    exact ⟨fun _ ↦ id, .refl _⟩
  · rw [release_freed h hb hpeek hall, held_eq hb, List.map_cons,
      List.append_cons s.freed b.id (s.queued.map RecvChain.id)]
    exact ⟨fun _ ↦ List.mem_cons_of_mem _, .refl _⟩

/-- **What is copied comes next in the stream.** -/
theorem InOrder.release (hopen : s.recvmbox ≠ none) : InOrder (s.release b c).toRecvBuffers (s.copied b c).mem := by
  obtain ⟨hmbox, hdelivered, hrecved, hcalls⟩ := release_frame s b c
  obtain ⟨hheld, honce⟩ := release_once h hb hpeek
  have htaken : (s.release b c).taken = s.taken := by rw [RecvBuffers.taken, hcalls]; rfl
  have hqueued : (s.release b c).queued = s.queued := by rw [RecvBuffers.queued, hmbox]; rfl
  have hstream : (s.release b c).stream = s.stream := by rw [RecvBuffers.stream, hdelivered]; rfl
  have hrest : (s.copied b c).mem ++ (s.release b c).rest = c.mem ++ s.rest := by
    rw [copied_mem h hb, release_rest h hb hpeek, List.append_assoc, List.take_append_drop]
  have hwhole : s.taken ++ (s.copied b c).mem ++ (s.release b c).rest ++ s.queued.flatMap RecvChain.bytes = s.stream := by
    rw [List.append_assoc s.taken, hrest, ← List.append_assoc]
    exact h.whole_stream hopen
  refine ⟨fun b' hb' ↦ h.whole b' (hheld b' hb'), ?_, release_offset h hb hpeek, fun _ ↦ ?_, ?_, fun _ r hr ↦ ?_, ?_, ?_⟩
  · rw [hdelivered]
    exact honce.trans h.once
  · rw [htaken, hqueued, hstream, hwhole]
  · rw [htaken, hstream, ← hwhole, List.append_assoc (_ ++ _)]
    exact List.prefix_append _ _
  · rw [hrest]
    rw [hcalls] at hr
    exact h.peeked hopen r hr
  · rw [hcalls]
    exact h.right
  · rw [hrecved, hcalls]
    exact h.recved

end release

/-- The call returns, or goes on with the loop. -/
theorem copy_cases (s : RecvState) (b : RecvChain) (c : RecvCall) : ∃ t d, t = s.release b c ∧ d = s.copied b c ∧
    (s.isDone b c = true ∧ s.copy b c = t.returns d d.mem.length ∨
      s.isDone b c = false ∧ s.copy b c = { t with pc := .top d }) := by
  refine ⟨_, _, rfl, rfl, ?_⟩
  rw [RecvState.copy]
  split_ifs with hdone
  · exact .inl ⟨hdone, rfl⟩
  · exact .inr ⟨Bool.eq_false_of_not_eq_true hdone, rfl⟩

/-- It goes on only if the buffer was used up. -/
theorem len_pos_of_isDone (h : s.isDone b c = false) : 0 < c.len - s.copylen b c ∧ c.args.peek = false := by
  rw [RecvState.isDone, copied_left] at h
  simp only [Bool.or_eq_false_iff, decide_eq_false_iff_not] at h
  exact ⟨Nat.pos_of_ne_zero h.1.1.1, h.2⟩

theorem isDone_of_peek (hpeek : c.args.peek = true) : s.isDone b c = true := by
  rw [RecvState.isDone, hpeek, Bool.or_true]

/-- **A copy without `MSG_PEEK` keeps the invariant.** -/
theorem RecvInv.copy_taken (h : InOrder s.toRecvBuffers c.mem) (hopen : s.recvmbox ≠ none)
    (hlen : c.args.len = c.len + c.mem.length) (hb : s.lastdata = some b) (hpeek : c.args.peek = false) :
    RecvInv (s.copy b c) := by
  have hk := copylen_eq h hb c
  have hlen' := copied_len h hb c
  have hleft := copied_left s b c
  have hargs := copied_args s b c
  have hrelease := h.release hb hpeek hopen
  have hrest := release_rest h hb hpeek
  have hopen' : (s.release b c).recvmbox ≠ none := by rwa [(release_frame s b c).1]
  have hout : (s.copied b c).out = (s.copied b c).mem := by rw [RecvCall.out, hargs, hpeek, if_neg Bool.false_ne_true]
  rw [← hout] at hrelease
  obtain ⟨t, d, ht, hd, hcopy⟩ := copy_cases s b c
  rw [← ht, ← hd] at hrelease
  rw [← hd] at hlen' hleft hargs
  rw [← ht] at hrest hopen'
  have hnot : ¬d.args.peek = true := by rw [hargs, hpeek]; exact Bool.false_ne_true
  rcases hcopy with ⟨-, hcopy⟩ | ⟨hdone, hcopy⟩
  · rw [hcopy]
    refine hrelease.returns hopen' ?_ (fun hp ↦ absurd hp hnot) (fun _ ↦ ?_) _
    · rw [hargs]
      omega
    · rw [hrest]
      rcases Nat.lt_or_ge (s.copylen b c) c.len with hlt | hge
      · exact .inr (List.drop_eq_nil_of_le (by omega))
      · exact .inl (by omega)
  · have hpos := (len_pos_of_isDone hdone).1
    have hfreed := release_freed h hb hpeek (by omega)
    rw [← ht] at hfreed
    rw [hcopy]
    refine ⟨hrelease, hopen', ⟨?_, fun hp ↦ absurd hp hnot⟩, fun _ ↦ ?_⟩
    · rw [hargs]
      omega
    · rw [hfreed]

/-- **A copy with `MSG_PEEK`** returns, and changes nothing else. -/
theorem RecvInv.copy_peeked (h : InOrder s.toRecvBuffers []) (hopen : s.recvmbox ≠ none)
    (hlen : c.args.len = c.len + c.mem.length) (hmem : c.mem = []) (hb : s.lastdata = some b) (hpeek : c.args.peek = true) :
    RecvInv (s.copy b c) := by
  have hlen' := copied_len h hb c
  have hargs := copied_args s b c
  have hcopied := copied_mem h hb c
  rw [hmem, List.nil_append] at hcopied
  have hrelease : s.release b c = s := by rw [RecvState.release, if_pos hpeek]
  obtain ⟨t, d, ht, hd, ⟨-, hcopy⟩ | ⟨hdone, -⟩⟩ := copy_cases s b c
  · rw [hrelease] at ht
    rw [← hd] at hlen' hargs hcopied
    rw [hcopy, ht]
    have hout : d.out = [] := by rw [RecvCall.out, hargs, if_pos hpeek]
    rw [← hout] at h
    refine h.returns hopen ?_ (fun _ ↦ ?_) (fun hp ↦ ?_) _
    · rw [hargs]
      omega
    · rw [hcopied]
      exact List.take_prefix _ _
    · rw [hargs, hpeek] at hp
      cases hp
  · rw [isDone_of_peek hpeek] at hdone
    cases hdone

/-- **The part of the loop behind the buffer keeps the invariant.** -/
theorem RecvInv.copy (h : InOrder s.toRecvBuffers c.out) (hopen : s.recvmbox ≠ none) (hgoing : c.Going)
    (hb : s.lastdata = some b) : RecvInv (s.copy b c) := by
  obtain ⟨hlen, hmem⟩ := hgoing
  rw [RecvCall.out] at h
  rcases hpeek : c.args.peek with _ | _
  · rw [hpeek, if_neg Bool.false_ne_true] at h
    exact .copy_taken h hopen hlen hb hpeek
  · rw [if_pos hpeek] at h
    exact .copy_peeked h hopen hlen (hmem hpeek) hb hpeek

/-! ### The other steps -/

/-- **The loop is left with no buffer.** -/
theorem RecvInv.leave (h : InOrder s.toRecvBuffers c.out) (hopen : s.recvmbox ≠ none) (hgoing : c.Going)
    (hnone : s.lastdata = none) (ret : ℤ) : RecvInv (s.leave c ret) := by
  have hrest : s.rest = [] := by rw [RecvBuffers.rest, hnone]; exact List.drop_nil
  refine h.returns hopen hgoing.1 (fun hpeek ↦ ?_) (fun _ ↦ .inr hrest) _
  rw [hgoing.2 hpeek]
  exact List.nil_prefix

/-- Something with no chain in it comes into the `recvmbox` or out of it. -/
theorem InOrder.mbox {mbox : Option (List (Option RecvChain))} (h : InOrder d mem)
    (hqueued : { d with recvmbox := mbox }.queued = d.queued) (hopen : mbox ≠ none → d.recvmbox ≠ none) :
    InOrder { d with recvmbox := mbox } mem := by
  have hheld : { d with recvmbox := mbox }.held = d.held := congrArg (d.lastdata.toList ++ ·) hqueued
  refine ⟨?_, ?_, h.offset, fun ho ↦ ?_, h.taken_begins, fun ho ↦ h.peeked (hopen ho), h.right, h.recved⟩
  · rw [hheld]
    exact h.whole
  · rw [hheld]
    exact h.once
  · rw [hqueued]
    exact h.whole_stream (hopen ho)

/-- What is in the `recvmbox` is fetched. -/
theorem RecvInv.fetched {buf : Option RecvChain} {mbox : List (Option RecvChain)} (h : InOrder s.toRecvBuffers c.out)
    (hmbox : s.recvmbox = some (buf :: mbox)) (hgoing : c.Going) (hnone : s.lastdata = none) :
    RecvInv (s.fetched c buf mbox) := by
  have hopen : s.recvmbox ≠ none := by simp [hmbox]
  cases buf with
  | none =>
    have hskip : InOrder { s.toRecvBuffers with recvmbox := some mbox } c.out := by
      refine h.mbox ?_ fun _ ↦ hopen
      rw [RecvBuffers.queued, RecvBuffers.queued, hmbox]
      rfl
    exact RecvInv.leave (s := { s with
      recvmbox := some mbox, rcvevent := s.rcvevent - 1, lastErr := if errIsFatal s.lastErr then s.lastErr else .clsd })
      hskip (Option.some_ne_none _) hgoing hnone _
  | some b =>
    have hqueued : s.queued = b :: mbox.reduceOption := by rw [RecvBuffers.queued, hmbox]; rfl
    have hheld : (s.fetched c (some b) mbox).held = s.held := by
      rw [held_eq (b := b) rfl, RecvBuffers.held, hnone, hqueued]
      rfl
    have hzero : s.lastoffset = 0 := by
      have hle := h.offset
      rw [hnone] at hle
      exact Nat.le_zero.1 hle
    have hrest : s.rest = [] := by rw [RecvBuffers.rest, hnone]; exact List.drop_nil
    have hrest' : (s.fetched c (some b) mbox).rest = b.bytes := by
      rw [rest_eq (b := b) rfl]
      change b.bytes.drop s.lastoffset = _
      rw [hzero, List.drop_zero]
    have hstream := h.whole_stream hopen
    rw [hqueued, hrest, List.append_nil, List.flatMap_cons, ← List.append_assoc] at hstream
    refine ⟨⟨?_, ?_, ?_, fun _ ↦ ?_, h.taken_begins, fun _ r hr ↦ ?_, h.right, h.recved⟩, Option.some_ne_none _, hgoing⟩
    · rw [hheld]
      exact h.whole
    · rw [hheld]
      exact h.once
    · change s.lastoffset ≤ _
      rw [hzero]
      exact Nat.zero_le _
    · rw [hrest']
      exact hstream
    · have hbegins := h.peeked hopen r hr
      rw [hrest, List.append_nil] at hbegins
      exact hbegins.trans (List.prefix_append _ _)

/-- Chains that are held are freed, and there is no `recvmbox` any more. -/
theorem InOrder.dropped {d' : RecvBuffers} (h : InOrder d mem) (hmbox : d'.recvmbox = none)
    (hheld : ∀ b ∈ d'.held, b ∈ d.held)
    (honce : (d'.freed ++ d'.held.map RecvChain.id).Perm (d.freed ++ d.held.map RecvChain.id))
    (hoffset : d'.lastoffset ≤ ((d'.lastdata.map RecvChain.bytes).getD []).length)
    (hframe : (d'.delivered, d'.recved, d'.calls) = (d.delivered, d.recved, d.calls)) : InOrder d' mem := by
  obtain ⟨hdelivered, hrecved, hcalls⟩ : d'.delivered = d.delivered ∧ d'.recved = d.recved ∧ d'.calls = d.calls := by
    simpa using hframe
  refine ⟨fun b hb ↦ h.whole b (hheld b hb), ?_, hoffset, absurd hmbox, ?_, absurd hmbox, ?_, ?_⟩
  · rw [hdelivered]
    exact honce.trans h.once
  · rw [RecvBuffers.taken, RecvBuffers.stream, hdelivered, hcalls]
    exact h.taken_begins
  · rw [hcalls]
    exact h.right
  · rw [hrecved, hcalls]
    exact h.recved

/-- `netconn_drain`. -/
theorem InOrder.drain (h : InOrder s.toRecvBuffers mem) : InOrder s.drain.toRecvBuffers mem := by
  have hheld : s.drain.held = s.lastdata.toList := List.append_nil _
  refine h.dropped rfl ?_ ?_ h.offset rfl
  · rw [hheld]
    exact fun b hb ↦ List.mem_append_left _ hb
  · rw [hheld, RecvBuffers.held, List.map_append]
    change (s.freed ++ s.queued.map RecvChain.id ++ _).Perm _
    rw [List.append_assoc]
    exact List.perm_append_comm.append_left _

/-- What the thread can do next. -/
inductive Runs (s : RecvState) : RecvState → Prop where
  | kept {c : RecvCall} (hpc : s.pc = .top c) (hdata : s.lastdata ≠ none) : Runs s { s with pc := .copy c }
  | ask {c : RecvCall} (hpc : s.pc = .top c) (hnone : s.lastdata = none) : Runs s { s with pc := .recv c }
  | leave {c : RecvCall} (hpc : s.pc = .top c ∧ s.lastdata = none ∨ s.pc = .recv c) (ret : ℤ) : Runs s (s.leave c ret)
  | wait {c : RecvCall} (hpc : s.pc = .recv c) : Runs s { s with pc := .fetch c }
  | fetch {c : RecvCall} {buf : Option RecvChain} {mbox : List (Option RecvChain)} (hpc : s.pc = .fetch c)
    (hmbox : s.recvmbox = some (buf :: mbox)) : Runs s (s.fetched c buf mbox)
  | copy {c : RecvCall} {b : RecvChain} (hpc : s.pc = .copy c) (hb : s.lastdata = some b) : Runs s (s.copy b c)
  | free (hpc : s.pc = .closing) : Runs s { s with
      pc := .closed, lastdata := none, lastoffset := 0, freed := s.freed ++ (s.lastdata.map RecvChain.id).toList }

theorem run_cases (hs : s.run = some s') : Runs s s' := by
  rw [RecvState.run] at hs
  cases hpc : s.pc with
  | idle => simp [hpc] at hs
  | closed => simp [hpc] at hs
  | top c =>
    simp only [hpc] at hs
    split_ifs at hs with hdata hwould <;> cases hs
    · exact .kept hpc hdata
    · exact .leave (.inl ⟨hpc, not_not.1 hdata⟩) _
    · exact .ask hpc (not_not.1 hdata)
  | recv c =>
    simp only [hpc] at hs
    split_ifs at hs with hfatal <;> cases hs
    · exact .leave (.inr hpc) _
    · exact .wait hpc
  | fetch c =>
    simp only [hpc] at hs
    rcases hmbox : s.recvmbox with _ | _ | ⟨buf, mbox⟩
    · simp [hmbox] at hs
    · simp [hmbox] at hs
    · simp only [hmbox] at hs
      cases hs
      exact .fetch hpc hmbox
  | copy c =>
    simp only [hpc] at hs
    obtain ⟨b, hb, rfl⟩ := Option.map_eq_some_iff.1 hs
    exact .copy hpc hb
  | closing =>
    simp only [hpc] at hs
    cases hs
    exact .free hpc

/-- **The thread goes on**, from one access to the next. -/
theorem RecvInv.run (h : RecvInv s) (hs : Runs s s') : RecvInv s' := by
  rw [RecvInv] at h
  cases hs with
  | kept hpc hdata =>
    simp only [hpc] at h
    obtain ⟨h, hopen, hgoing, -⟩ := h
    exact ⟨h, hopen, hgoing⟩
  | ask hpc hnone =>
    simp only [hpc] at h
    obtain ⟨h, hopen, hgoing, -⟩ := h
    exact ⟨h, hopen, hgoing, hnone⟩
  | leave hpc ret =>
    rcases hpc with ⟨hpc, hnone⟩ | hpc
    · simp only [hpc] at h
      obtain ⟨h, hopen, hgoing, -⟩ := h
      exact .leave h hopen hgoing hnone ret
    · simp only [hpc] at h
      obtain ⟨h, hopen, hgoing, hnone⟩ := h
      exact .leave h hopen hgoing hnone ret
  | wait hpc =>
    simp only [hpc] at h
    exact h
  | fetch hpc hmbox =>
    simp only [hpc] at h
    obtain ⟨h, -, hgoing, hnone⟩ := h
    exact .fetched h hmbox hgoing hnone
  | copy hpc hb =>
    simp only [hpc] at h
    obtain ⟨h, hopen, hgoing⟩ := h
    exact .copy h hopen hgoing hb
  | free hpc =>
    simp only [hpc] at h
    obtain ⟨h, hclosed⟩ := h
    have hqueued : s.queued = [] := by rw [RecvBuffers.queued, hclosed]; rfl
    refine ⟨h.dropped hclosed (fun b hb ↦ List.mem_append_right _ hb) ?_ (Nat.zero_le _) rfl, hclosed, rfl⟩
    change (s.freed ++ (s.lastdata.map RecvChain.id).toList ++ s.queued.map RecvChain.id).Perm _
    rw [RecvBuffers.held, hqueued, List.map_nil, List.append_nil, List.append_nil, Option.toList_map]

/-! ### The tcpip thread -/

/-- The tcpip thread leaves the buffers in order, `lastdata` alone, and the `recvmbox` where there is one. -/
theorem RecvInv.mono (h : RecvInv s) (hpc : s'.pc = s.pc) (hdata : s'.lastdata = s.lastdata)
    (hmbox : s'.recvmbox = none ↔ s.recvmbox = none)
    (horder : ∀ mem, InOrder s.toRecvBuffers mem → InOrder s'.toRecvBuffers mem) : RecvInv s' := by
  rw [RecvInv] at h ⊢
  rw [hpc]
  cases hp : s.pc <;> simp only [hp, hdata, ne_eq, hmbox] at h ⊢ <;> exact h.imp_left (horder _)

theorem InOrder.post_none (h : InOrder s.toRecvBuffers mem) : InOrder (s.post none).toRecvBuffers mem := by
  refine h.mbox ?_ ?_
  · rw [RecvBuffers.queued, RecvBuffers.queued]
    cases s.recvmbox with
    | none => rfl
    | some mbox => simp [List.reduceOption_append]
  · rw [ne_eq, Option.map_eq_none_iff]
    exact id

/-- A chain is delivered; where there is a `recvmbox`, it comes last. -/
theorem InOrder.delivered {d' : RecvBuffers} (h : InOrder d mem) (hdelivered : d'.delivered = d.delivered ++ [bs])
    (hwhole : ∀ b ∈ d'.held, b.Whole)
    (honce : (d'.freed ++ d'.held.map RecvChain.id).Perm (d.freed ++ d.held.map RecvChain.id ++ [d.delivered.length]))
    (hqueued : d'.recvmbox ≠ none → d.recvmbox ≠ none ∧
      d'.queued.flatMap RecvChain.bytes = d.queued.flatMap RecvChain.bytes ++ bs)
    (hframe : (d'.lastdata, d'.lastoffset, d'.recved, d'.calls) = (d.lastdata, d.lastoffset, d.recved, d.calls)) :
    InOrder d' mem := by
  obtain ⟨hdata, hoffset, hrecved, hcalls⟩ : d'.lastdata = d.lastdata ∧ d'.lastoffset = d.lastoffset ∧
      d'.recved = d.recved ∧ d'.calls = d.calls := by simpa using hframe
  have hstream : d'.stream = d.stream ++ bs := by
    rw [RecvBuffers.stream, hdelivered, List.flatten_append, List.flatten_singleton]
    rfl
  have htaken : d'.taken = d.taken := by rw [RecvBuffers.taken, hcalls]; rfl
  have hrest : d'.rest = d.rest := by rw [RecvBuffers.rest, hdata, hoffset]; rfl
  refine ⟨hwhole, ?_, ?_, fun ho ↦ ?_, ?_, fun ho ↦ ?_, ?_, ?_⟩
  · rw [hdelivered, List.length_append, List.length_singleton, List.range_succ]
    exact honce.trans (h.once.append_right _)
  · rw [hdata, hoffset]
    exact h.offset
  · rw [htaken, hrest, hstream, (hqueued ho).2, ← List.append_assoc, h.whole_stream (hqueued ho).1]
  · rw [htaken, hstream]
    exact h.taken_begins.trans (List.prefix_append _ _)
  · rw [hcalls, hrest]
    exact h.peeked (hqueued ho).1
  · rw [hcalls]
    exact h.right
  · rw [hrecved, hcalls]
    exact h.recved

theorem post_queued (hmbox : s.recvmbox ≠ none) (b : RecvChain) : (s.post (some b)).queued = s.queued ++ [b] := by
  obtain ⟨mbox, hmbox⟩ := Option.ne_none_iff_exists'.1 hmbox
  rw [RecvBuffers.queued, RecvBuffers.queued, RecvState.post, hmbox]
  exact (List.reduceOption_append _ _).trans (by rw [List.reduceOption_singleton]; rfl)

/-- **`recv_tcp`**: the chain is freed if there is no `recvmbox`, and waits in it otherwise. -/
theorem InOrder.recvTcp {pbufs : List Pbuf} (h : InOrder s.toRecvBuffers mem) (htotals : Totals pbufs)
    (hlen : (pbufBytes pbufs).length < 2 ^ 16) (push : Bool) : InOrder (s.recvTcp pbufs push).toRecvBuffers mem := by
  rw [RecvState.recvTcp]
  split_ifs with hmbox
  · refine h.delivered rfl h.whole ?_ (absurd hmbox) rfl
    change (s.freed ++ [s.delivered.length] ++ s.held.map RecvChain.id).Perm _
    rw [List.append_assoc, List.append_assoc]
    exact List.perm_append_comm.append_left _
  · have hqueued := post_queued hmbox ⟨s.delivered.length, pbufs, push⟩
    have hheld : (s.post (some ⟨s.delivered.length, pbufs, push⟩)).held =
        s.held ++ [⟨s.delivered.length, pbufs, push⟩] := by
      rw [RecvBuffers.held, hqueued, ← List.append_assoc]
      rfl
    refine h.delivered rfl ?_ ?_ (fun _ ↦ ⟨hmbox, ?_⟩) rfl
    · change ∀ b ∈ (s.post _).held, b.Whole
      rw [hheld]
      intro b hb
      rcases List.mem_append.1 hb with hb | hb
      · exact h.whole b hb
      · rw [List.mem_singleton.1 hb]
        exact ⟨htotals, hlen⟩
    · change (s.freed ++ (s.post _).held.map RecvChain.id).Perm _
      rw [hheld, List.map_append, ← List.append_assoc]
      exact .refl _
    · change (s.post _).queued.flatMap RecvChain.bytes = _
      rw [hqueued, List.flatMap_append, List.flatMap_singleton]
      rfl

theorem recvTcp_frame (s : RecvState) (pbufs : List Pbuf) (push : Bool) : (s.recvTcp pbufs push).pc = s.pc ∧
    (s.recvTcp pbufs push).lastdata = s.lastdata ∧ ((s.recvTcp pbufs push).recvmbox = none ↔ s.recvmbox = none) ∧
    (s.recvTcp pbufs push).calls = s.calls := by
  rw [RecvState.recvTcp]
  split_ifs
  · exact ⟨rfl, rfl, .rfl, rfl⟩
  · exact ⟨rfl, rfl, Option.map_eq_none_iff, rfl⟩

/-! ### One step -/

/-- **One step keeps the invariant.** -/
theorem RecvInv.step {l : RecvLabel} (h : RecvInv s) (hs : RecvState.step l s = some s') : RecvInv s' := by
  cases l with
  | call args =>
    rw [RecvState.step] at hs
    split_ifs at hs with hpc
    cases hs
    rw [RecvInv, hpc] at h
    refine ⟨?_, h.2, ⟨rfl, fun _ ↦ rfl⟩, absurd rfl⟩
    rw [RecvCall.out, ite_self]
    exact h.1
  | close =>
    rw [RecvState.step] at hs
    split_ifs at hs with hpc
    cases hs
    rw [RecvInv, hpc] at h
    exact ⟨h.1.drain, rfl⟩
  | run => exact h.run (run_cases hs)
  | deliver pbufs push =>
    rw [RecvState.step] at hs
    split_ifs at hs with hready
    cases hs
    obtain ⟨-, -, htotals, hlen⟩ := hready
    obtain ⟨hpc, hdata, hmbox, -⟩ := recvTcp_frame s pbufs push
    exact h.mono hpc hdata hmbox fun mem horder ↦ horder.recvTcp htotals hlen push
  | fin =>
    rw [RecvState.step] at hs
    split_ifs at hs with hready hmbox
    · cases hs
      exact h
    · cases hs
      exact h.mono rfl rfl Option.map_eq_none_iff fun mem horder ↦ horder.post_none
  | event =>
    rw [RecvState.step] at hs
    split_ifs at hs with hready
    cases hs
    exact h.mono rfl rfl .rfl fun _ ↦ id
  | error err =>
    rw [RecvState.step] at hs
    split_ifs at hs with hready
    cases hs
    exact h.mono rfl rfl .rfl fun _ ↦ id
  | null posted =>
    rw [RecvState.step] at hs
    split_ifs at hs with hready hposted
    · cases hs
      exact h.mono rfl rfl Option.map_eq_none_iff fun mem horder ↦ horder.post_none
    · cases hs
      exact h.mono rfl rfl .rfl fun _ ↦ id

/-! ### Nothing is peeked at -/

/-- `off` stays an `int` in the copy that comes next. -/
def OffFits : RecvLabel → RecvState → Bool
  | .run, s =>
    match s.pc, s.lastdata with
    | .copy c, some b => c.mem.length + s.copylen b c < 2 ^ 31
    | _, _ => true
  | _, _ => true

/-- If the copy that comes next is for a call with `MSG_PEEK`, it copies nothing. -/
def PeeksNothing : RecvLabel → RecvState → Bool
  | .run, s =>
    match s.pc, s.lastdata with
    | .copy c, some b => !c.args.peek || s.copylen b c = 0
    | _, _ => true
  | _, _ => true

/-- No call with `MSG_PEEK` has returned anything. -/
def NothingPeeked (calls : List RecvReturn) : Prop := ∀ r ∈ calls, r.args.peek → r.mem = []

theorem NothingPeeked.returns (h : NothingPeeked s.calls) (hmem : c.args.peek → c.mem = []) (ret : ℤ) :
    NothingPeeked (s.returns c ret).calls := by
  intro r hr
  rcases List.mem_append.1 hr with hr | hr
  · exact h r hr
  · rw [List.mem_singleton.1 hr]
    exact hmem

/-- What has been returned behind the copy. -/
theorem copy_calls (s : RecvState) (b : RecvChain) (c : RecvCall) : (s.copy b c).calls =
    if s.isDone b c then s.calls ++ [⟨c.args, (s.copied b c).mem.length, (s.copied b c).mem⟩] else s.calls := by
  have hcalls := (release_frame s b c).2.2.2
  have hargs := copied_args s b c
  obtain ⟨t, d, ht, hd, hcopy⟩ := copy_cases s b c
  rw [← ht] at hcalls
  rw [← hd] at hargs
  rw [← hcalls, ← hargs, ← hd]
  rcases hcopy with ⟨hdone, hcopy⟩ | ⟨hdone, hcopy⟩
  · rw [hcopy, if_pos hdone]
    rfl
  · rw [hcopy, hdone, if_neg Bool.false_ne_true]

theorem NothingPeeked.copy (h : NothingPeeked s.calls) (hinv : InOrder s.toRecvBuffers mem) (hb : s.lastdata = some b)
    (hmem : c.args.peek → c.mem = []) (hpeek : c.args.peek → s.copylen b c = 0) : NothingPeeked (s.copy b c).calls := by
  rw [copy_calls]
  split_ifs
  · intro r hr hp
    rcases List.mem_append.1 hr with hr | hr
    · exact h r hr hp
    · rw [List.mem_singleton.1 hr] at hp ⊢
      dsimp only at hp ⊢
      rw [copied_mem hinv hb, hmem hp, hpeek hp]
      rfl
  · exact h

/-- What the thread that goes on returned, and what it has returned before. -/
theorem NothingPeeked.run (h : NothingPeeked s.calls) (hinv : RecvInv s) (hpeeks : PeeksNothing .run s) (hs : Runs s s') :
    NothingPeeked s'.calls := by
  rw [RecvInv] at hinv
  cases hs with
  | kept | ask | wait | free => exact h
  | leave hpc ret =>
    rcases hpc with ⟨hpc, -⟩ | hpc
    all_goals
      simp only [hpc] at hinv
      exact h.returns hinv.2.2.1.2 _
  | @fetch c buf mbox hpc hmbox =>
    simp only [hpc] at hinv
    cases buf with
    | none =>
      exact NothingPeeked.returns (s := { s with
        recvmbox := some mbox, rcvevent := s.rcvevent - 1, lastErr := if errIsFatal s.lastErr then s.lastErr else .clsd })
        h hinv.2.2.1.2 _
    | some b => exact h
  | copy hpc hb =>
    simp only [hpc] at hinv
    refine h.copy hinv.1 hb hinv.2.2.2 fun hp ↦ ?_
    simpa [PeeksNothing, hpc, hb, hp] using hpeeks

/-- Only the thread that calls returns anything. -/
theorem step_calls {l : RecvLabel} (hs : RecvState.step l s = some s') (hl : l ≠ .run) : s'.calls = s.calls := by
  cases l with
  | run => exact absurd rfl hl
  | deliver pbufs push =>
    rw [RecvState.step] at hs
    split_ifs at hs
    cases hs
    exact (recvTcp_frame s pbufs push).2.2.2
  | null posted =>
    rw [RecvState.step] at hs
    split_ifs at hs <;> cases hs <;> rfl
  | call | close | fin | event | error =>
    rw [RecvState.step] at hs
    split_ifs at hs <;> cases hs <;> rfl

/-- What was returned stays returned. -/
theorem run_calls (hs : Runs s s') : s.calls <+: s'.calls := by
  cases hs with
  | kept | ask | wait | free => exact List.prefix_refl _
  | leave => exact List.prefix_append _ _
  | @fetch c buf mbox hpc hmbox =>
    cases buf with
    | none => exact List.prefix_append _ _
    | some b => exact List.prefix_refl _
  | @copy c b hpc hb =>
    rw [copy_calls]
    split_ifs
    · exact List.prefix_append _ _
    · exact List.prefix_refl _

/-- **A call with `MSG_PEEK` returns what it copies.** -/
theorem peeksNothing_of_run (hinv : RecvInv s) (hs : s.run = some s') (h : NothingPeeked s'.calls) :
    PeeksNothing .run s := by
  rw [PeeksNothing]
  split
  · rename_i c b hpc hb
    rw [Bool.or_eq_true, Bool.not_eq_true', decide_eq_true_eq]
    rcases hpeek : c.args.peek with _ | _
    · exact .inl rfl
    · right
      rw [RecvInv, hpc] at hinv
      rw [RecvState.run] at hs
      simp only [hpc, hb, Option.map_some, Option.some.injEq] at hs
      rw [← hs, copy_calls, if_pos (isDone_of_peek hpeek)] at h
      have hnil := h _ (List.mem_append_right _ (List.mem_singleton_self _)) hpeek
      have hlen := congrArg List.length hnil
      have hk := copylen_eq hinv.1 hb c
      dsimp only at hlen
      rw [copied_mem hinv.1 hb, List.length_append, List.length_take, List.length_nil] at hlen
      omega
  · rfl

/-- One step: nothing is peeked at. -/
theorem nothingPeeked_step {l : RecvLabel} (hinv : RecvInv s) (hs : RecvState.step l s = some s') :
    NothingPeeked s'.calls ↔ NothingPeeked s.calls ∧ PeeksNothing l s := by
  by_cases hl : l = .run
  · subst hl
    constructor
    · intro h
      exact ⟨fun r hr ↦ h r ((run_calls (run_cases hs)).mem hr), peeksNothing_of_run hinv hs h⟩
    · rintro ⟨h, hpeeks⟩
      exact h.run hinv hpeeks (run_cases hs)
  · have hpeeks : PeeksNothing l s = true := by cases l <;> first | rfl | exact absurd rfl hl
    rw [step_calls hs hl, and_iff_left hpeeks]

/-- **Nothing was peeked at exactly if no copy was for a call with `MSG_PEEK`.** -/
theorem nothingPeeked_iff {nonblocking : Bool} {ls : List RecvLabel}
    (h : runLabels RecvState.step ls (.init nonblocking) = some s) :
    NothingPeeked s.calls ↔
      runLabels (guardStep (fun l s ↦ PeeksNothing l s) RecvState.step) ls (.init nonblocking) = some s := by
  refine (runLabels_induction (I := fun ls s ↦ RecvInv s ∧ (NothingPeeked s.calls ↔
    runLabels (guardStep (fun l s ↦ PeeksNothing l s) RecvState.step) ls (.init nonblocking) = some s)) ?_ ?_ h).2
  · exact ⟨.init nonblocking, iff_of_true nofun rfl⟩
  · rintro ls l s s' hrun ⟨hinv, hiff⟩ hs
    refine ⟨hinv.step hs, ?_⟩
    rw [nothingPeeked_step hinv hs, hiff, runLabels_concat_eq_some]
    constructor
    · rintro ⟨hguard, hpeeks⟩
      exact ⟨s, hguard, guardStep_eq_some.2 ⟨hpeeks, hs⟩⟩
    · rintro ⟨u, hguard, hu⟩
      obtain rfl : u = s := Option.some.inj ((runLabels_of_guardStep hguard).symm.trans hrun)
      exact ⟨hguard, (guardStep_eq_some.1 hu).1⟩

/-! ### The stream -/

theorem taken_cons (r : RecvReturn) (calls : List RecvReturn) :
    ((r :: calls).flatMap fun r ↦ if r.args.peek then [] else r.mem).length =
      (if r.args.peek then [] else r.mem).length + (calls.flatMap fun r ↦ if r.args.peek then [] else r.mem).length := by
  rw [List.flatMap_cons, List.length_append]

/-- All that was returned is what was taken exactly if nothing was peeked at. -/
theorem taken_length (calls : List RecvReturn) :
    (calls.flatMap fun r ↦ if r.args.peek then [] else r.mem).length ≤ (calls.map fun r ↦ r.mem.length).sum ∧
      ((calls.map fun r ↦ r.mem.length).sum = (calls.flatMap fun r ↦ if r.args.peek then [] else r.mem).length ↔
        NothingPeeked calls) := by
  induction calls with
  | nil => exact ⟨le_rfl, iff_of_true rfl nofun⟩
  | cons r calls ih =>
    obtain ⟨hle, hiff⟩ := ih
    rw [NothingPeeked, List.forall_mem_cons, ← NothingPeeked, ← hiff, taken_cons, List.map_cons, List.sum_cons,
      ← List.length_eq_zero_iff]
    rcases r.args.peek with _ | _
    · simp only [Bool.false_eq_true, if_false, false_imp_iff, true_and]
      omega
    · simp only [if_true, List.length_nil, true_imp_iff]
      omega

theorem RecvInv.inOrder (h : RecvInv s) : ∃ mem, InOrder s.toRecvBuffers mem := by
  rw [RecvInv] at h
  cases hpc : s.pc <;> simp only [hpc] at h <;> exact ⟨_, h.1⟩

/-- **The received stream**: what the calls without `MSG_PEEK` took is the beginning of it, what was peeked at comes next,
and no chain is lost or freed twice. What `netconn_recved` was told is what was taken exactly if no copy was for a call
with `MSG_PEEK`. -/
theorem recvfrom_stream {nonblocking : Bool} {ls : List RecvLabel}
    (h : runLabels (guardStep (fun l s ↦ OffFits l s) RecvState.step) ls (.init nonblocking) = some s) :
    s.taken <+: s.stream ∧ PeeksRight s.calls ∧
      (s.freed ++ s.held.map RecvChain.id).Perm (List.range s.delivered.length) ∧ (s.pc = .closed → s.held = []) ∧
      (s.recved.sum = s.taken.length ↔
        runLabels (guardStep (fun l s ↦ PeeksNothing l s) RecvState.step) ls (.init nonblocking) = some s) := by
  have hrun := runLabels_of_guardStep h
  have hinv : RecvInv s := runLabels_invariant (.init nonblocking) (fun _ _ _ h hs ↦ h.step hs) hrun
  obtain ⟨mem, horder⟩ := hinv.inOrder
  refine ⟨(List.prefix_append _ _).trans horder.taken_begins, horder.right, horder.once, fun hpc ↦ ?_, ?_⟩
  · rw [RecvInv, hpc] at hinv
    obtain ⟨-, hclosed, hnone⟩ := hinv
    rw [RecvBuffers.held, RecvBuffers.queued, hclosed, hnone]
    rfl
  · rw [← nothingPeeked_iff hrun, horder.recved]
    exact (taken_length s.calls).2

/-- Two of three bytes are read, and the socket is closed. -/
theorem recvfrom_stream_two : ∃ s : RecvState, runLabels (guardStep (fun l s ↦ OffFits l s) RecvState.step)
      [.deliver [⟨[1, 2, 3], 3⟩] false, .event, .call ⟨2, false, false⟩, .run, .run, .run, .run, .close, .run]
      (.init false) = some s ∧
    (s.taken = [1, 2] ∧ s.stream = [1, 2, 3] ∧ s.freed = [0] ∧ s.recved = [2]) ∧ s.taken <+: s.stream ∧ s.held = [] := by
  refine exists_run_of_observe (fun s ↦ (s.pc, s.taken, s.stream, s.freed, s.recved))
    (.closed, [1, 2], [1, 2, 3], [0], [2]) rfl fun s hs hobs ↦ ?_
  obtain ⟨hpc, htaken, hstream, hfreed, hrecved⟩ : s.pc = .closed ∧ s.taken = [1, 2] ∧ s.stream = [1, 2, 3] ∧
      s.freed = [0] ∧ s.recved = [2] := by simpa using hobs
  obtain ⟨hbegins, -, -, hheld, -⟩ := recvfrom_stream hs
  exact ⟨⟨htaken, hstream, hfreed, hrecved⟩, hbegins, hheld hpc⟩

/-- **A peek.** Three bytes are peeked at, and the receive window is updated for them. -/
theorem recvfrom_peeks : ∃ s : RecvState, runLabels (guardStep (fun l s ↦ OffFits l s) RecvState.step)
      [.deliver [⟨[1, 2, 3], 3⟩] true, .event, .call ⟨3, true, false⟩, .run, .run, .run, .run] (.init false) = some s ∧
    s.calls = [⟨⟨3, true, false⟩, 3, [1, 2, 3]⟩] ∧ s.taken = [] ∧ s.recved.sum = 3 ∧ s.recved.sum ≠ s.taken.length :=
  ⟨_, rfl, by decide⟩

end Lwip.Sockets
