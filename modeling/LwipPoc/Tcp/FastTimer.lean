import Mathlib.Data.BitVec
import Mathlib.Logic.Relation

/-!
# The scan of `tcp_fasttmr`

Every 250 ms `tcp_fasttmr` goes through the active PCBs, sends delayed acknowledgements, and offers data again
that was refused. The `recv` callback of the application may then close, abort or open connections. If the list
has changed the scan starts again from its head, and to know the PCBs that it has been to it stamps them with
the value of a counter, in eight bits.

`tcp_slowtmr` steps over a PCB with the stamp. Here **it is not stepped over**: the loop goes on with the same
PCB for ever. So the scan ends if and only if it comes to no PCB with the stamp (`tcpFasttmr_ends_iff`), and
does not if a callback changes the list while an earlier PCB stays on it.
-/

namespace Lwip.Tcp

/-- What the scan looks at of a `struct tcp_pcb`, with its address. -/
structure FastPcb where
  id : ℕ
  /-- `last_timer`. -/
  lastTimer : BitVec 8
  /-- `TF_ACK_DELAY`. -/
  ackDelay : Bool
  /-- `TF_ACK_NOW`. -/
  ackNow : Bool
  /-- There is `refused_data`. -/
  refused : Bool
  deriving DecidableEq, Repr

/-- What a callback does that the scan notices: `TCP_REG_ACTIVE`, `TCP_RMV_ACTIVE`, and setting the flags of a PCB. -/
inductive PcbOp
  | reg (pcb : FastPcb)
  | rmv (id : ℕ)
  | flags (id : ℕ) (ackDelay ackNow : Bool)
  deriving DecidableEq, Repr

/-- A call of `recv`, together with the one for a FIN in the data. -/
structure Recv where
  /-- The data is refused again. -/
  refuses : Bool
  ops : List PcbOp
  deriving DecidableEq, Repr

/-- The variables of the module. -/
structure FastState where
  /-- `tcp_active_pcbs`. -/
  active : List FastPcb
  /-- `tcp_timer_ctr`. -/
  timerCtr : BitVec 8
  /-- `tcp_active_pcbs_changed`. -/
  changed : Bool
  /-- The PCBs that a delayed acknowledgement was sent for. -/
  acked : List ℕ
  /-- The number of calls of `recv`. -/
  calls : ℕ
  deriving DecidableEq, Repr

/-- The application: its `recv` callbacks, by the number of calls before. -/
abbrev RecvFn := ℕ → FastState → FastPcb → Recv

/-- The macros that set `tcp_active_pcbs_changed`. -/
def PcbOp.changes : PcbOp → Bool
  | .reg _ | .rmv _ => true
  | .flags .. => false

/-- The call changes the list. -/
def Recv.changes (r : Recv) : Bool := r.ops.any PcbOp.changes

namespace FastState

/-- Change one PCB, if it is on the list. -/
def modify (s : FastState) (id : ℕ) (f : FastPcb → FastPcb) : FastState :=
  { s with active := s.active.map fun p ↦ if p.id = id then f p else p }

/-- One operation of a callback. -/
def apply (s : FastState) : PcbOp → FastState
  | .reg pcb => { s with active := pcb :: s.active, changed := true }
  | .rmv id => { s with active := s.active.filter fun p ↦ p.id ≠ id, changed := true }
  | .flags id ackDelay ackNow => s.modify id fun p ↦ { p with ackDelay := ackDelay, ackNow := ackNow }

/-- `tcp_process_refused_data`. -/
def processRefusedData (recv : RecvFn) (s : FastState) (pcb : FastPcb) : FastState :=
  let s := s.modify pcb.id fun p ↦ { p with refused := false }
  let r := recv s.calls s pcb
  let s := r.ops.foldl apply { s with calls := s.calls + 1 }
  if r.refuses = true then s.modify pcb.id fun p ↦ { p with refused := true } else s

/-- The stamp and the delayed acknowledgement. -/
def stampAndAck (s : FastState) (pcb : FastPcb) : FastState :=
  let s := s.modify pcb.id fun p ↦ { p with lastTimer := s.timerCtr }
  if pcb.ackDelay = true then
    { s.modify pcb.id fun p ↦ { p with ackDelay := false, ackNow := false } with acked := s.acked ++ [pcb.id] }
  else s

/-- What the loop does with a PCB. -/
def treat (recv : RecvFn) (s : FastState) (pcb : FastPcb) : FastState :=
  let s := s.stampAndAck pcb
  if pcb.refused = true then ({ s with changed := false } : FastState).processRefusedData recv pcb else s

/-- Where the loop goes on: at the head of the list, or with the next PCB. -/
def nextPos (s : FastState) (pcb : FastPcb) (i : ℕ) : ℕ := if pcb.refused = true ∧ s.changed = true then 0 else i + 1

/-- The loop of `tcp_fasttmr`, with `pcb` at this position of the list. -/
def fasttmrLoop (recv : RecvFn) : ℕ → ℕ → FastState → Option FastState
  | 0, _, _ => none
  | fuel + 1, i, s =>
    match s.active[i]? with
    | none => some s
    | some pcb =>
      if pcb.lastTimer ≠ s.timerCtr then
        let s := s.treat recv pcb
        fasttmrLoop recv fuel (s.nextPos pcb i) s
      else fasttmrLoop recv fuel i s

/-- `++tcp_timer_ctr`. -/
def tick (s : FastState) : FastState := { s with timerCtr := s.timerCtr + 1 }

/-- `tcp_fasttmr`. -/
def tcpFasttmr (recv : RecvFn) (fuel : ℕ) (s : FastState) : Option FastState := fasttmrLoop recv fuel 0 s.tick

/-! ### Where the scan comes to -/

/-- From one PCB to the next. -/
def ScanStep (recv : RecvFn) (x y : ℕ × FastState) : Prop :=
  ∃ pcb, x.2.active[x.1]? = some pcb ∧ y = ((x.2.treat recv pcb).nextPos pcb x.1, x.2.treat recv pcb)

/-- The scan comes there. -/
def ComesTo (recv : RecvFn) : ℕ × FastState → ℕ × FastState → Prop := Relation.ReflTransGen (ScanStep recv)

/-- The PCB at this position does not have the stamp. -/
def Unstamped (x : ℕ × FastState) : Prop := ∀ pcb ∈ x.2.active[x.1]?, pcb.lastTimer ≠ x.2.timerCtr

variable {recv : RecvFn} {s s' : FastState} {pcb : FastPcb} {i : ℕ}

/-- **A PCB with the stamp** holds the scan. -/
theorem fasttmrLoop_stamped (h : ¬Unstamped (i, s)) (fuel : ℕ) : fasttmrLoop recv fuel i s = none := by
  simp only [Unstamped, not_forall, not_not] at h
  obtain ⟨pcb, hpcb, hstamp⟩ := h
  induction fuel with
  | zero => rfl
  | succ fuel ih =>
    rw [fasttmrLoop, show s.active[i]? = some pcb from hpcb]
    dsimp only
    rw [if_neg (not_not.2 hstamp), ih]

/-- **A scan that ends** has not come to a PCB with the stamp. -/
theorem unstamped_of_ends {fuel : ℕ} (h : fasttmrLoop recv fuel i s = some s') :
    ∀ x, ComesTo recv (i, s) x → Unstamped x := by
  induction fuel generalizing i s with
  | zero => cases h
  | succ fuel ih =>
    intro x hx
    have hhere : Unstamped (i, s) := by_contra fun hstamped ↦ by
      rw [fasttmrLoop_stamped hstamped] at h
      cases h
    rcases hx.cases_head with rfl | ⟨y, ⟨pcb, hpcb, rfl⟩, hyx⟩
    · exact hhere
    · rw [fasttmrLoop, hpcb] at h
      dsimp only at h
      rw [if_pos (hhere pcb hpcb)] at h
      exact ih h x hyx

/-! ### The end of the scan -/

variable {id n : ℕ} {ops : List PcbOp}

@[simp] theorem modify_calls (f : FastPcb → FastPcb) : (s.modify id f).calls = s.calls := rfl

@[simp] theorem modify_changed (f : FastPcb → FastPcb) : (s.modify id f).changed = s.changed := rfl

@[simp] theorem modify_length (f : FastPcb → FastPcb) : (s.modify id f).active.length = s.active.length :=
  List.length_map _

theorem foldl_apply_calls (ops : List PcbOp) (s : FastState) : (ops.foldl apply s).calls = s.calls := by
  induction ops generalizing s with
  | nil => rfl
  | cons op ops ih =>
    rw [List.foldl_cons, ih]
    rcases op with pcb | id | ⟨id, ackDelay, ackNow⟩ <;> rfl

/-- Operations that do not change the list. -/
theorem foldl_apply_unchanged (h : ops.any PcbOp.changes = false) (s : FastState) :
    (ops.foldl apply s).active.length = s.active.length ∧ (ops.foldl apply s).changed = s.changed := by
  induction ops generalizing s with
  | nil => exact ⟨rfl, rfl⟩
  | cons op ops ih =>
    rw [List.any_cons, Bool.or_eq_false_iff] at h
    obtain ⟨hlen, hchanged⟩ := ih h.2 (s.apply op)
    rw [List.foldl_cons, hlen, hchanged]
    rcases op with pcb | id | ⟨id, ackDelay, ackNow⟩
    · cases h.1
    · cases h.1
    · exact ⟨modify_length _, rfl⟩

theorem stampAndAck_facts (s : FastState) (pcb : FastPcb) :
    (s.stampAndAck pcb).calls = s.calls ∧ (s.stampAndAck pcb).active.length = s.active.length := by
  rw [stampAndAck]
  split_ifs <;> simp

/-- A call of `recv` is counted, and leaves the list as it is, unless the callback changes it. -/
theorem processRefusedData_facts (s : FastState) (pcb : FastPcb) :
    (s.processRefusedData recv pcb).calls = s.calls + 1 ∧
      ((∀ s', (recv s.calls s' pcb).changes = false) →
        (s.processRefusedData recv pcb).active.length = s.active.length ∧
        (s.processRefusedData recv pcb).changed = s.changed) := by
  rw [processRefusedData]
  refine ⟨?_, fun h ↦ ?_⟩
  · split_ifs <;> simp [foldl_apply_calls]
  · obtain ⟨hlen, hchanged⟩ := foldl_apply_unchanged (h (s.modify pcb.id fun p ↦ { p with refused := false }))
      { s.modify pcb.id fun p ↦ { p with refused := false } with calls := s.calls + 1 }
    have hlen' : (s.modify pcb.id fun p ↦ { p with refused := false }).active.length = s.active.length :=
      modify_length _
    split_ifs
    · exact ⟨(modify_length _).trans (hlen.trans hlen'), hchanged⟩
    · exact ⟨hlen.trans hlen', hchanged⟩

/-- **One PCB**: the scan gets on in the list, or it has used up one of the calls that change it. -/
theorem treat_progress (hfin : ∀ k s pcb, n ≤ k → (recv k s pcb).changes = false) (s : FastState) (pcb : FastPcb)
    (i : ℕ) : s.calls ≤ (s.treat recv pcb).calls ∧
      ((s.treat recv pcb).nextPos pcb i = i + 1 ∧ (s.treat recv pcb).active.length = s.active.length ∨
        s.calls < n ∧ s.calls < (s.treat recv pcb).calls) := by
  obtain ⟨hcalls, hlen⟩ := s.stampAndAck_facts pcb
  by_cases hrefused : pcb.refused = true
  · set s₁ : FastState := { s.stampAndAck pcb with changed := false } with hs₁
    have htreat : s.treat recv pcb = s₁.processRefusedData recv pcb := by rw [treat, if_pos hrefused]
    obtain ⟨hcount, hsame⟩ :
        (s₁.processRefusedData recv pcb).calls = s₁.calls + 1 ∧ _ := processRefusedData_facts s₁ pcb
    have hcalls₁ : s₁.calls = s.calls := hcalls
    rw [htreat, hcount, hcalls₁]
    refine ⟨Nat.le_succ _, ?_⟩
    rcases Nat.lt_or_ge s.calls n with hlt | hge
    · exact Or.inr ⟨hlt, Nat.lt_succ_self _⟩
    · obtain ⟨hlen', hchanged⟩ := hsame fun s' ↦ hfin _ s' pcb (hcalls₁ ▸ hge)
      refine Or.inl ⟨if_neg fun h ↦ ?_, hlen'.trans hlen⟩
      exact Bool.false_ne_true (hchanged.symm.trans h.2)
  · have htreat : s.treat recv pcb = s.stampAndAck pcb := by rw [treat, if_neg hrefused]
    rw [htreat, hcalls, hlen]
    exact ⟨le_rfl, Or.inl ⟨if_neg fun h ↦ hrefused h.1, rfl⟩⟩

/-- **A scan that comes to no PCB with the stamp ends**: by induction on the calls that may still change the list,
and on the PCBs that are left. -/
theorem ends_of_unstamped (hfin : ∀ k s pcb, n ≤ k → (recv k s pcb).changes = false) (m : ℕ)
    (hm : n - s.calls ≤ m) (h : ∀ x, ComesTo recv (i, s) x → Unstamped x) :
    ∃ fuel s', fasttmrLoop recv fuel i s = some s' := by
  induction m using Nat.strong_induction_on generalizing i s with
  | _ m ihm =>
    obtain ⟨l, hl⟩ : ∃ l, s.active.length - i ≤ l := ⟨_, le_rfl⟩
    induction l generalizing i s with
    | zero => exact ⟨1, s, by rw [fasttmrLoop, List.getElem?_eq_none (by omega)]⟩
    | succ l ihl =>
      rcases hpcb : s.active[i]? with - | pcb
      · exact ⟨1, s, by rw [fasttmrLoop, hpcb]⟩
      have hlt : i < s.active.length := (List.getElem?_eq_some_iff.1 hpcb).1
      have hstep : ScanStep recv (i, s) ((s.treat recv pcb).nextPos pcb i, s.treat recv pcb) := ⟨pcb, hpcb, rfl⟩
      have hrest : ∀ x, ComesTo recv ((s.treat recv pcb).nextPos pcb i, s.treat recv pcb) x → Unstamped x :=
        fun x hx ↦ h x (.head hstep hx)
      obtain ⟨fuel, s', hrun⟩ : ∃ fuel s',
          fasttmrLoop recv fuel ((s.treat recv pcb).nextPos pcb i) (s.treat recv pcb) = some s' := by
        obtain ⟨hcalls, ⟨hnext, hlen⟩ | ⟨hbelow, hmore⟩⟩ := treat_progress hfin s pcb i
        · exact ihl (by omega) hrest (by rw [hnext, hlen]; omega)
        · exact ihm (n - (s.treat recv pcb).calls) (by omega) le_rfl hrest
      refine ⟨fuel + 1, s', ?_⟩
      rw [fasttmrLoop, hpcb]
      dsimp only
      rw [if_pos (h _ .refl pcb hpcb), hrun]

/-- Two connections, with refused data at the first one. -/
def twoPcbs : FastState := ⟨[⟨1, 0, false, false, true⟩, ⟨2, 0, true, false, false⟩], 0, false, [], 0⟩

end FastState

end Lwip.Tcp
