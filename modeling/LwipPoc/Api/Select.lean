import LwipPoc.Foundation.Execution
import Mathlib.Data.BitVec
import Mathlib.Logic.Function.Basic

/-!
# `lwip_select`

`lwip_selscan`, `lwip_select` and `event_callback` of `api/sockets.c`. Any number of threads are in `lwip_select` and
in `event_callback`, and each goes from one section under `SYS_ARCH_PROTECT` to the next: `SelPc` and `EvPc` say
which section comes next. `event_callback` drops the protection after each node of `select_cb_list` and starts again
if `select_cb_ctr` has changed.

* A thread has one `select_cb`, on its stack, which goes by the thread's number.
* `select_cb_ctr` is an `int`, whose overflow C leaves undefined; here it is an integer. `select_waiting` has the
  width of its type, since assertions are made about it.
* A socket is not closed while a select that is past its first scan and not yet off the list has it in its sets.
  Sockets are read and opened at any time, and events happen on all of them.
* Before it has the socket, `event_callback` may find that a connection has none yet; such an event is counted in the
  connection and does not come here.

A failed assertion is `none`. How often a semaphore was signalled is counted.
-/

namespace Lwip.Sockets

/-- `struct lwip_sock`. -/
structure LwipSock where
  /-- `conn != NULL`. -/
  conn : Bool
  /-- `lastdata != NULL`. -/
  lastdata : Bool
  /-- An `s16_t`. -/
  rcvevent : BitVec 16
  sendevent : BitVec 16
  errevent : BitVec 16
  /-- An `int`. -/
  selectWaiting : BitVec 32
  deriving DecidableEq, Repr

/-- `enum netconn_evt`. -/
inductive NetconnEvt
  | rcvplus
  | rcvminus
  | sendplus
  | sendminus
  | error
  deriving DecidableEq, Repr

/-- An event happens on a socket. -/
def NetconnEvt.set (evt : NetconnEvt) (sock : LwipSock) : LwipSock :=
  match evt with
  | .rcvplus => { sock with rcvevent := sock.rcvevent + 1 }
  | .rcvminus => { sock with rcvevent := sock.rcvevent - 1 }
  | .sendplus => { sock with sendevent := 1 }
  | .sendminus => { sock with sendevent := 0 }
  | .error => { sock with errevent := 1 }

/-- The sets of a select, each of which may be `NULL`. -/
structure FdSets where
  readset : Option (List ℕ)
  writeset : Option (List ℕ)
  exceptset : Option (List ℕ)
  deriving DecidableEq, Repr

/-- `set && FD_ISSET(i, set)`. -/
def fdIsset (i : ℕ) (set : Option (List ℕ)) : Bool := set.any fun fds ↦ fds.contains i

/-- The socket is in one of the sets. -/
def FdSets.has (sets : FdSets) (i : ℕ) : Bool :=
  fdIsset i sets.readset || fdIsset i sets.writeset || fdIsset i sets.exceptset

/-- The test of `event_callback`: what the sets ask for has happened on the socket. -/
def FdSets.wants (sets : FdSets) (i : ℕ) (sock : LwipSock) : Bool :=
  decide (0 < sock.rcvevent.toInt) && fdIsset i sets.readset || decide (sock.sendevent ≠ 0) && fdIsset i sets.writeset ||
    decide (sock.errevent ≠ 0) && fdIsset i sets.exceptset

/-- The arguments of `lwip_select`; `timeout` holds seconds and microseconds. -/
structure SelectArgs where
  maxfdp1 : ℕ
  sets : FdSets
  timeout : Option (ℕ × ℕ)
  deriving DecidableEq, Repr

/-- `struct lwip_select_cb`. -/
structure SelectCb where
  next : Option ℕ
  prev : Option ℕ
  sets : FdSets
  semSignalled : Bool
  /-- The count of the semaphore. -/
  sem : ℕ
  /-- How often the semaphore was signalled. -/
  signals : ℕ
  deriving DecidableEq, Repr

/-- `event_callback` visits a node of the list for a socket. -/
def SelectCb.visit (cb : SelectCb) (i : ℕ) (sock : LwipSock) : SelectCb :=
  if !cb.semSignalled && cb.sets.wants i sock then
    { cb with semSignalled := true, sem := cb.sem + 1, signals := cb.signals + 1 }
  else cb

/-- The variables of `lwip_selscan`. -/
structure Selscan where
  i : ℕ
  nready : ℕ
  lreadset : List ℕ
  lwriteset : List ℕ
  lexceptset : List ℕ
  deriving DecidableEq, Repr

/-- The start of a scan. -/
def Selscan.init : Selscan := ⟨0, 0, [], [], []⟩

/-- One turn of the loop of `lwip_selscan`; `sock` is what `tryget_socket` gave. -/
def Selscan.turn (sets : FdSets) (sock : Option LwipSock) (r : Selscan) : Selscan :=
  let reads := fdIsset r.i sets.readset && sock.any fun s ↦ s.lastdata || decide (0 < s.rcvevent.toInt)
  let writes := fdIsset r.i sets.writeset && sock.any fun s ↦ decide (s.sendevent ≠ 0)
  let excepts := fdIsset r.i sets.exceptset && sock.any fun s ↦ decide (s.errevent ≠ 0)
  { i := r.i + 1
    nready := r.nready + reads.toNat + writes.toNat + excepts.toNat
    lreadset := if reads then r.lreadset ++ [r.i] else r.lreadset
    lwriteset := if writes then r.lwriteset ++ [r.i] else r.lwriteset
    lexceptset := if excepts then r.lexceptset ++ [r.i] else r.lexceptset }

/-- The three scans of `lwip_select`. -/
inductive SelPhase
  | first
  | second
  | last
  deriving DecidableEq, Repr

/-- Where a thread is in `lwip_select`. -/
inductive SelPc
  /-- In no call; the last one returned this. -/
  | idle (result : Option Selscan)
  | scan (phase : SelPhase) (r : Selscan)
  /-- It puts itself on the list. -/
  | enlist
  /-- It increases `select_waiting` from this socket on. -/
  | count (i : ℕ)
  | blocked (r : Selscan)
  /-- It decreases `select_waiting` from this socket on; the wait has timed out, or not. -/
  | uncount (i : ℕ) (timedOut : Bool) (r : Selscan)
  /-- It takes itself off the list. -/
  | delist (timedOut : Bool) (r : Selscan)
  deriving DecidableEq, Repr

/-- The select is past its first scan, and not yet off the list. -/
def SelPc.waits : SelPc → Bool
  | idle _ | scan .first _ | scan .last _ => false
  | enlist | count _ | scan .second _ | blocked _ | uncount .. | delist .. => true

/-- A thread that calls `lwip_select`. -/
structure SelThread where
  args : SelectArgs
  pc : SelPc
  deriving DecidableEq, Repr

/-- Where a thread is in `event_callback`. -/
inductive EvPc
  | idle
  /-- It has the socket. -/
  | found (s : ℕ) (evt : NetconnEvt)
  /-- It has visited a node of the list, and dropped the protection. -/
  | walking (s scb : ℕ) (lastSelectCbCtr : ℤ)
  deriving DecidableEq, Repr

/-- The variables of the module, and where the threads are. -/
structure SelectSys where
  /-- `NUM_SOCKETS`. -/
  numSockets : ℕ
  sockets : ℕ → LwipSock
  selectCbList : Option ℕ
  selectCbCtr : ℤ
  /-- The number of threads that call `lwip_select`. -/
  numThreads : ℕ
  cb : ℕ → SelectCb
  sel : ℕ → SelThread
  ev : ℕ → EvPc

namespace SelectSys

open Function

/-- No socket is open and no thread is in a call. -/
def init (numSockets numThreads : ℕ) : SelectSys :=
  ⟨numSockets, fun _ ↦ ⟨false, false, 0, 0, 0, 0⟩, none, 0, numThreads,
    fun _ ↦ ⟨none, none, ⟨none, none, none⟩, false, 0, 0⟩, fun _ ↦ ⟨⟨0, ⟨none, none, none⟩, none⟩, .idle none⟩,
    fun _ ↦ .idle⟩

/-- `tryget_socket`. -/
def trygetSocket (s : SelectSys) (i : ℕ) : Option LwipSock :=
  if i < s.numSockets ∧ (s.sockets i).conn then some (s.sockets i) else none

/-- The select of a thread goes on at `pc`. -/
def goto (s : SelectSys) (t : ℕ) (pc : SelPc) : SelectSys :=
  { s with sel := update s.sel t { s.sel t with pc := pc } }

/-! ### The steps of `lwip_select` -/

/-- Behind a scan; `sem` says whether a semaphore can be made. -/
def scanned (s : SelectSys) (t : ℕ) (sem : Bool) (r : Selscan) : SelPhase → SelectSys
  | .first =>
    if r.nready ≠ 0 then s.goto t (.idle (some r))
    else if (s.sel t).args.timeout = some (0, 0) then s.goto t (.idle (some r))
    else if sem then
      { s with cb := update s.cb t ⟨none, none, (s.sel t).args.sets, false, 0, 0⟩ }.goto t .enlist
    else s.goto t (.idle none)
  | .second => if r.nready = 0 then s.goto t (.blocked r) else s.goto t (.uncount 0 false r)
  | .last => s.goto t (.idle (some r))

/-- The select goes on top of the list. -/
def enlist (s : SelectSys) (t : ℕ) : SelectSys :=
  let cb := update s.cb t { s.cb t with next := s.selectCbList }
  let cb := match s.selectCbList with
    | some h => update cb h { cb h with prev := some t }
    | none => cb
  { s with cb := cb, selectCbList := some t, selectCbCtr := s.selectCbCtr + 1 }

/-- `sock->select_waiting` is set, if the assertions about the socket and the new value hold. -/
def setWaiting (s : SelectSys) (i : ℕ) (n : BitVec 32) (positive : Bool) : Option SelectSys :=
  if (s.trygetSocket i).isSome ∧ (if positive then 0 < n.toInt else 0 ≤ n.toInt) then
    some { s with sockets := update s.sockets i { s.sockets i with selectWaiting := n } }
  else none

/-- The select is taken off the list. -/
def delist (s : SelectSys) (t : ℕ) : Option SelectSys :=
  let c := s.cb t
  let cb := match c.next with
    | some b => update s.cb b { s.cb b with prev := c.prev }
    | none => s.cb
  if s.selectCbList = some t then
    if c.prev = none then some { s with cb := cb, selectCbList := c.next, selectCbCtr := s.selectCbCtr + 1 } else none
  else
    match c.prev with
    | some a => some { s with cb := update cb a { cb a with next := c.next }, selectCbCtr := s.selectCbCtr + 1 }
    | none => none

/-- One step of `lwip_select`. `env` says whether a semaphore can be made, and whether a wait is ended by the
semaphore and not by the timeout. -/
def selectStep (s : SelectSys) (t : ℕ) (env : Bool) : Option SelectSys :=
  let a := (s.sel t).args
  match (s.sel t).pc with
  | .idle _ => none
  | .scan phase r =>
    if r.i < a.maxfdp1 then some (s.goto t (.scan phase (r.turn a.sets (s.trygetSocket r.i))))
    else some (s.scanned t env r phase)
  | .enlist => some ((s.enlist t).goto t (.count 0))
  | .count i =>
    if i < a.maxfdp1 then
      if a.sets.has i then
        (s.setWaiting i ((s.sockets i).selectWaiting + 1) true).map fun s ↦ s.goto t (.count (i + 1))
      else some (s.goto t (.count (i + 1)))
    else some (s.goto t (.scan .second .init))
  | .blocked r =>
    if env then
      if 0 < (s.cb t).sem then
        some ({ s with cb := update s.cb t { s.cb t with sem := (s.cb t).sem - 1 } }.goto t (.uncount 0 false r))
      else none
    else if a.timeout = none then none
    else some (s.goto t (.uncount 0 true r))
  | .uncount i timedOut r =>
    if i < a.maxfdp1 then
      if a.sets.has i then
        (s.setWaiting i ((s.sockets i).selectWaiting - 1) false).map fun s ↦ s.goto t (.uncount (i + 1) timedOut r)
      else some (s.goto t (.uncount (i + 1) timedOut r))
    else some (s.goto t (.delist timedOut r))
  | .delist timedOut r =>
    (s.delist t).map fun s ↦ s.goto t (if timedOut then .idle (some r) else .scan .last .init)

/-! ### The steps of `event_callback` -/

/-- `event_callback` goes on at `scb`: it visits this node and drops the protection, or the list has ended. -/
def walkFrom (s : SelectSys) (e i : ℕ) : Option ℕ → SelectSys
  | none => { s with ev := update s.ev e .idle }
  | some x =>
    { s with
      cb := update s.cb x ((s.cb x).visit i (s.sockets i))
      ev := update s.ev e (.walking i x s.selectCbCtr) }

/-- One step of `event_callback`. -/
def eventStep (s : SelectSys) (e : ℕ) : Option SelectSys :=
  match s.ev e with
  | .idle => none
  | .found i evt =>
    let s : SelectSys := { s with sockets := update s.sockets i (evt.set (s.sockets i)) }
    if (s.sockets i).selectWaiting = 0 then some { s with ev := update s.ev e .idle }
    else some (s.walkFrom e i s.selectCbList)
  | .walking i scb last =>
    if last ≠ s.selectCbCtr then some (s.walkFrom e i s.selectCbList)
    else some (s.walkFrom e i (s.cb scb).next)

/-- A select that waits has the socket in its sets. -/
def watched (s : SelectSys) (i : ℕ) : Bool :=
  (List.range s.numThreads).any fun t ↦
    (s.sel t).pc.waits && decide (i < (s.sel t).args.maxfdp1) && (s.sel t).args.sets.has i

end SelectSys

/-- What can happen. -/
inductive SelectLabel
  /-- A thread calls `lwip_select`. -/
  | select (t : ℕ) (args : SelectArgs)
  | selectStep (t : ℕ) (env : Bool)
  /-- A thread calls `event_callback` for a connection with this socket. -/
  | event (e i : ℕ) (evt : NetconnEvt)
  | eventStep (e : ℕ)
  /-- `alloc_socket`; a socket that was created by `accept`, or is not of TCP, can be written to at once. -/
  | allocSocket (i : ℕ) (sendevent : Bool)
  | freeSocket (i : ℕ)
  /-- A read from a socket leaves data in `lastdata`, or takes the last of it. -/
  | read (i : ℕ) (lastdata : Bool)
  deriving DecidableEq, Repr

open Function in
/-- One step. -/
def selectSysStep : SelectLabel → SelectSys → Option SelectSys
  | .select t args, s =>
    match (s.sel t).pc with
    | .idle _ => if t < s.numThreads then some { s with sel := update s.sel t ⟨args, .scan .first .init⟩ } else none
    | _ => none
  | .selectStep t env, s => s.selectStep t env
  | .event e i evt, s =>
    if s.ev e = .idle then
      if (s.trygetSocket i).isSome then some { s with ev := update s.ev e (.found i evt) } else some s
    else none
  | .eventStep e, s => s.eventStep e
  | .allocSocket i sendevent, s =>
    if i < s.numSockets ∧ (s.sockets i).conn = false then
      some { s with sockets := update s.sockets i ⟨true, false, 0, if sendevent then 1 else 0, 0, 0⟩ }
    else none
  | .freeSocket i, s =>
    if s.watched i then none
    else some { s with sockets := update s.sockets i { s.sockets i with conn := false, lastdata := false } }
  | .read i lastdata, s => some { s with sockets := update s.sockets i { s.sockets i with lastdata := lastdata } }

end Lwip.Sockets
