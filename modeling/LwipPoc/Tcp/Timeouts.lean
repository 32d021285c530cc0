import LwipPoc.Tcp.RcvWindow
import LwipPoc.Tcp.Pace

/-!
# Retransmission timeouts

Two limits of `tcp_slowtmr`, and what they rest on.

* **How often** a segment is sent again. The timer gives up when `nrtx` **is** `TCP_MAXRTX`, and until
  then reads the back-off of `nrtx` from a table. But `tcp_rexmit` counts in `nrtx` too, for a duplicate
  of the peer's `SYN` and in fast retransmission, and tests no limit. Done between two ticks it takes
  `nrtx` past the limit, and past the end of the table.
* **After how long**. The timeout is computed in a `s16_t`, from an estimate in the same type. The
  estimator keeps eight times the average; the back-off multiplies by up to 128.

For each there is a condition on the steps of a run under which all is well, and a run without it.
-/

namespace Lwip.Tcp

open Pace (Edit Edits)

/-! ### The limit on retransmissions -/

/-- **The condition**: no segment that makes `tcp_rexmit` send again arrives when the limit has been
reached. -/
def Conn.MayResend : Label → Conn → Prop
  | .input g _, c => c.pcb.nrtx = tcpMaxrtx → ¬c.pcb.Resends g
  | _, _ => True

instance : (l : Label) → (c : Conn) → Decidable (Conn.MayResend l c)
  | .input g _, c => inferInstanceAs (Decidable (c.pcb.nrtx = tcpMaxrtx → ¬c.pcb.Resends g))
  | .call _, _ | .recv .., _ | .inputDone _, _ | .refused _, _ | .fasttmr _, _ | .slowtmr _, _ => .isTrue trivial

/-- The limits on the number of retransmissions hold. -/
def Pcb.Counted (s : Pcb) (nrtx : ℕ) : Prop :=
  nrtx ≤ tcpMaxrtx ∧ (s.state = .synSent → nrtx ≤ tcpSynmaxrtx)

namespace Conn

variable {c c' : Conn} {l : Label}

theorem edit_counted {p q : Pace} (h : Edit c.pcb l p q) (hmay : MayResend l c) (hc : c.pcb.Counted c.pcb.nrtx)
    (hp : c.pcb.Counted p.nrtx) : c.pcb.Counted q.nrtx := by
  have h1 : tcpMaxrtx = 12 := rfl
  have h2 : tcpSynmaxrtx = 6 := rfl
  have hzero : c.pcb.Counted 0 := ⟨Nat.zero_le _, fun _ ↦ Nat.zero_le _⟩
  cases h with
  | option | accept | restart | grow | sample => exact hp
  | connect _ g env nrtx hnrtx =>
    rcases hnrtx with rfl | rfl
    · exact hp
    · exact hzero
  | newAck => exact hzero
  | resend _ g env hresends heq =>
    have hlimit : c.pcb.nrtx ≠ tcpMaxrtx := fun hmax ↦ hmay hmax hresends
    obtain ⟨hle, -⟩ := hc
    refine ⟨by dsimp only; omega, fun hstate ↦ ?_⟩
    obtain ⟨-, -, hdup | hthird⟩ := hresends
    · rw [hdup.1] at hstate
      cases hstate
    · rw [hstate] at hthird
      cases hthird.1
  | backOff env hdue =>
    have hgive : ¬(c.pcb.state = .synSent ∧ c.pcb.nrtx = tcpSynmaxrtx ∨ c.pcb.nrtx = tcpMaxrtx) :=
      of_decide_eq_false hdue.1
    obtain ⟨hle, hsyn⟩ := hc
    have hnrtx : (c.pcb.pace.backOff (decide (c.pcb.state = .synSent))
        (min c.pcb.cwnd c.pcb.sndWnd / 2)).nrtx = (c.pcb.nrtx + 1) % 2 ^ 8 := rfl
    rw [hnrtx]
    refine ⟨by omega, fun hstate ↦ ?_⟩
    have := hsyn hstate
    have hne : c.pcb.nrtx ≠ tcpSynmaxrtx := fun heq ↦ hgive (Or.inl ⟨hstate, heq⟩)
    omega

/-- A connection does not go back to `SYN_SENT`. -/
theorem step_ne_synSent (h : Conn.step l c = some c') (hstate : c.pcb.state ≠ .synSent) :
    c'.pcb.state ≠ .synSent := by
  obtain ⟨a, hcalls, hdata⟩ := step_edits h
  have hkept : ∀ {acks : SeqNum → Prop} {data : Prop} {a b : Accounts}, Accounts.Edits acks data a b →
      a.state ≠ .synSent → b.state ≠ .synSent := fun hedits ha ↦ by
    induction hedits with
    | refl => exact ha
    | tail _ hedit ih => exact edit_state hedit ih
  exact hkept hdata (hkept hcalls hstate)

theorem step_counted (h : Conn.step l c = some c') (hmay : MayResend l c) (hc : c.pcb.Counted c.pcb.nrtx) :
    c'.pcb.Counted c'.pcb.nrtx := by
  have hedits := step_paced h
  have hkept : c.pcb.Counted c'.pcb.pace.nrtx := by
    refine Relation.ReflTransGen.head_induction_on (motive := fun p _ ↦ c.pcb.Counted p.nrtx →
      c.pcb.Counted c'.pcb.pace.nrtx) hedits id (fun hedit _ ih hp ↦ ih (edit_counted hedit hmay hc hp)) hc
  refine ⟨hkept.1, fun hstate ↦ hkept.2 ?_⟩
  by_contra hne
  exact step_ne_synSent h hne hstate

theorem starts_counted {s : Pcb} (hs : s.Starts) : s.Counted s.nrtx := by
  have hzero : s.nrtx = 0 := by
    cases hs with
    | connecting => rfl
    | accepting iss ticks g mtu =>
      rw [Pcb.accepting, Pcb.tcpParseopt]
      split <;> rfl
  rw [hzero]
  exact ⟨Nat.zero_le _, fun _ ↦ Nat.zero_le _⟩

/-- A tick removes a connection that the timer gives up. -/
theorem step_givesUp {env : Pcb.TickEnv} (h : Conn.step (.slowtmr env) c = some c') (hgive : c.pcb.givesUp = true) :
    c'.pcb.state = .closed := by
  rw [step] at h
  split_ifs at h
  obtain rfl := Option.some.inj h
  have hgives : ({ c.pcb with ticks := c.pcb.ticks + 1 } : Pcb).givesUp = true := hgive
  dsimp only
  rw [Pcb.tcpSlowtmr]
  dsimp only
  rw [hgives, Bool.true_or, if_pos rfl]

/-- **The limit on retransmissions** in a run whose steps meet the condition: the table of back-offs is
read inside its bounds, the back-off fits, and when the limit has been reached the next tick removes the
connection. -/
theorem nrtx_within {s : Pcb} (hs : s.Starts) {ls : List Label}
    (h : runLabels (guardStep MayResend Conn.step) ls (Conn.start s) = some c) :
    c.pcb.nrtx < tcpBackoff.length ∧ tcpBackoff.getD c.pcb.nrtx 0 < 15 ∧
      ∀ env c', tcpMaxrtx ≤ c.pcb.nrtx ∨ c.pcb.state = .synSent ∧ tcpSynmaxrtx ≤ c.pcb.nrtx →
        Conn.step (.slowtmr env) c = some c' → c'.pcb.state = .closed := by
  have hcounted : c.pcb.Counted c.pcb.nrtx := by
    refine runLabels_invariant (I := fun c ↦ c.pcb.Counted c.pcb.nrtx) (starts_counted hs)
      (fun l c c' hc hl ↦ ?_) h
    obtain ⟨hmay, hl⟩ := guardStep_eq_some.1 hl
    exact step_counted hl hmay hc
  obtain ⟨hle, hsyn⟩ := hcounted
  have hlen : c.pcb.nrtx < tcpBackoff.length := Nat.lt_succ_of_le hle
  have hshift : ∀ n < tcpBackoff.length, tcpBackoff.getD n 0 < 15 := by decide
  refine ⟨hlen, hshift _ hlen, fun env c' hlimit hstep ↦ step_givesUp hstep (decide_eq_true ?_)⟩
  rcases hlimit with hmax | ⟨hstate, hmax⟩
  · exact Or.inr (Nat.le_antisymm hle hmax)
  · exact Or.inl ⟨hstate, Nat.le_antisymm (hsyn hstate) hmax⟩

/-- After the handshake nothing has been sent twice. -/
theorem nrtx_within_accepted :
    ∃ c, runLabels (guardStep MayResend Conn.step) fedLabels (Conn.start fedPcb) = some c ∧
      c.pcb.state = .established ∧ c.pcb.nrtx < tcpBackoff.length := by
  refine exists_run_of_observe (fun c ↦ c.pcb.state) .established (by decide) fun c hrun hobs ↦ ?_
  exact ⟨hobs, (nrtx_within (Pcb.Starts.accepting ..) hrun).1⟩

/-- **Past the limit**: after 13 duplicates of the peer's `SYN` between two ticks the timer does not give up
any more, and when it runs out five ticks later it reads the table behind its end. -/
theorem nrtx_passes_limit :
    ∃ s ls c, s.Starts ∧ runLabels Conn.step ls (Conn.start s) = some c ∧
      c.pcb.state = .synRcvd ∧ tcpMaxrtx < c.pcb.nrtx ∧ tcpBackoff.length ≤ c.pcb.nrtx ∧ c.pcb.TimesOut := by
  have hrun : ∃ c, runLabels Conn.step (Label.call (.output true) ::
      (List.replicate 13 [Label.input ⟨0, 0, 1000, true, false, false, false, none, [], by decide,
        Nat.zero_le _⟩ ⟨true, true, 0, [], .ok⟩, .inputDone true]).flatten ++
      List.replicate 5 (Label.slowtmr ⟨true, 0, false, false, false⟩)) (Conn.start fedPcb) = some c ∧
      c.pcb.state = .synRcvd ∧ c.pcb.nrtx = 13 ∧ c.pcb.TimesOut :=
    exists_run_of_observe (fun c ↦ (c.pcb.state, c.pcb.nrtx, decide c.pcb.TimesOut)) (.synRcvd, 13, true)
      (by decide) fun c _ hobs ↦ by
        obtain ⟨hstate, hobs⟩ := Prod.mk.inj hobs
        obtain ⟨hnrtx, hdue⟩ := Prod.mk.inj hobs
        exact ⟨hstate, hnrtx, of_decide_eq_true hdue⟩
  obtain ⟨c, hrun, hstate, hnrtx, hdue⟩ := hrun
  have hmax : tcpMaxrtx = 12 := rfl
  have hlen : tcpBackoff.length = 13 := rfl
  exact ⟨fedPcb, _, c, Pcb.Starts.accepting .., hrun, hstate, by omega, by omega, hdue⟩

end Conn

/-! ### The round-trip time -/

/-- The estimate of the round-trip time, with eight times the average and four times the deviation; and
the timeout. -/
structure Rtt where
  sa : ℤ
  sv : ℤ
  rto : ℤ
  deriving DecidableEq, Repr

/-- The estimate in a pace. -/
def Pace.rtt (p : Pace) : Rtt := ⟨p.sa, p.sv, p.rto⟩

namespace Rtt

/-- The estimate after a sample of `m` ticks, in integers. -/
def sample (r : Rtt) (m : ℤ) : Rtt :=
  let d := m - r.sa / 8
  let sa := r.sa + d
  let sv := r.sv + (|d| - r.sv / 4)
  ⟨sa, sv, sa / 8 + sv⟩

/-- **The updates, in integers**: there is no wrap in them. `m` is the sample, and `k` the back-off. -/
inductive Update (m : ℤ) (k : ℕ) : Rtt → Rtt → Prop
  | reset (r : Rtt) : Update m k r { r with rto := r.sa / 8 + r.sv }
  | sample (r : Rtt) : Update m k r (r.sample m)
  | backOff (r : Rtt) : Update m k r { r with rto := (r.sa / 8 + r.sv) * 2 ^ k }

/-- What holds of an estimate. -/
structure Sound (r : Rtt) : Prop where
  sa_nonneg : 0 ≤ r.sa
  sa_lt : r.sa < 2 ^ 15
  sv_pos : 1 ≤ r.sv
  sum_lt : r.sa / 8 + r.sv < 2 ^ 15
  rto_pos : 1 ≤ r.rto
  rto_lt : r.rto < 2 ^ 15

/-- A sample of `m` ticks fits: eight times the new average does, and the new timeout. -/
def Fits (r : Rtt) (m : ℤ) : Prop :=
  r.sa - r.sa / 8 + m < 2 ^ 15 ∧
    (r.sa - r.sa / 8 + m) / 8 + (r.sv - r.sv / 4 + |m - r.sa / 8|) < 2 ^ 15

instance (r : Rtt) (m : ℤ) : Decidable (r.Fits m) := inferInstanceAs (Decidable (_ ∧ _))

theorem Sound.sample {r : Rtt} (h : r.Sound) {m : ℤ} (hm : 0 ≤ m) (hfits : r.Fits m) : (r.sample m).Sound := by
  obtain ⟨hsa, hsaLt, hsv, hsum, -, -⟩ := h
  obtain ⟨hlt, hsumLt⟩ := hfits
  have habs : 0 ≤ |m - r.sa / 8| := abs_nonneg _
  have heq : r.sample m = ⟨r.sa - r.sa / 8 + m, r.sv - r.sv / 4 + |m - r.sa / 8|,
      (r.sa - r.sa / 8 + m) / 8 + (r.sv - r.sv / 4 + |m - r.sa / 8|)⟩ := by
    have hsa' : r.sa + (m - r.sa / 8) = r.sa - r.sa / 8 + m := by omega
    have hsv' : r.sv + (|m - r.sa / 8| - r.sv / 4) = r.sv - r.sv / 4 + |m - r.sa / 8| := by omega
    simp only [Rtt.sample, hsa', hsv']
  rw [heq]
  constructor <;> dsimp only <;> omega

end Rtt

theorem toS16_eq {x : ℤ} (h : -2 ^ 15 ≤ x) (h' : x < 2 ^ 15) : toS16 x = x := by
  rw [toS16]
  exact Int.bmod_eq_of_le (by omega) (by omega)

/-- A sample that fits is computed without a wrap. -/
theorem Pace.estimate_rtt {p : Pace} {m : ℤ} (h : p.rtt.Sound) (hm : 0 ≤ m) (hfits : p.rtt.Fits m) :
    (p.estimate m).rtt = p.rtt.sample m := by
  obtain ⟨hsa, hsaLt, hsv, hsum, -, -⟩ := h
  obtain ⟨hlt, hsumLt⟩ := hfits
  have hp : p.rtt.sa = p.sa ∧ p.rtt.sv = p.sv := ⟨rfl, rfl⟩
  rw [hp.1] at hsa hsaLt hsum hlt hsumLt
  rw [hp.2] at hsv hsum hsumLt
  have habs : 0 ≤ |m - p.sa / 8| := abs_nonneg _
  have hdiff : toS16 (m - p.sa / 8) = m - p.sa / 8 := toS16_eq (by omega) (by omega)
  have hsa' : toS16 (p.sa + (m - p.sa / 8)) = p.sa + (m - p.sa / 8) := toS16_eq (by omega) (by omega)
  have hdev : (if m - p.sa / 8 < 0 then toS16 (-(m - p.sa / 8)) else m - p.sa / 8) = |m - p.sa / 8| := by
    split_ifs with hneg
    · rw [abs_of_neg hneg, toS16_eq (by omega) (by omega)]
    · rw [abs_of_nonneg (by omega)]
  have hdiff' : toS16 (|m - p.sa / 8| - p.sv / 4) = |m - p.sa / 8| - p.sv / 4 :=
    toS16_eq (by omega) (by omega)
  have hsv' : toS16 (p.sv + (|m - p.sa / 8| - p.sv / 4)) = p.sv + (|m - p.sa / 8| - p.sv / 4) :=
    toS16_eq (by omega) (by omega)
  have hrto : toS16 ((p.sa + (m - p.sa / 8)) / 8 + (p.sv + (|m - p.sa / 8| - p.sv / 4))) =
      (p.sa + (m - p.sa / 8)) / 8 + (p.sv + (|m - p.sa / 8| - p.sv / 4)) := toS16_eq (by omega) (by omega)
  simp only [Pace.estimate, Pace.rtt, Rtt.sample, hdiff, hsa', hdev, hdiff', hsv', hrto]

namespace Conn

/-- **The condition**: a sample fits into the estimate that there is, and a back-off into the timeout. -/
def RttFits : Label → Conn → Prop
  | .input g _, c => c.pcb.Samples g → c.pcb.pace.rtt.Fits (c.pcb.ticks - c.pcb.rttest).toNat
  | .slowtmr _, c => c.pcb.TimesOut → c.pcb.state ≠ .synSent →
      (c.pcb.sa / 8 + c.pcb.sv) * 2 ^ tcpBackoff.getD c.pcb.nrtx 0 < 2 ^ 15
  | _, _ => True

instance : (l : Label) → (c : Conn) → Decidable (RttFits l c)
  | .input g _, c => inferInstanceAs (Decidable (c.pcb.Samples g → _))
  | .slowtmr _, c => inferInstanceAs (Decidable (c.pcb.TimesOut → _ → _))
  | .call _, _ | .recv .., _ | .inputDone _, _ | .refused _, _ | .fasttmr _, _ => .isTrue trivial

variable {c c' : Conn} {l : Label}

/-- The updates of a step. -/
abbrev Updated (c : Conn) : Rtt → Rtt → Prop :=
  Relation.ReflTransGen
    (Rtt.Update (c.pcb.ticks - c.pcb.rttest).toNat (tcpBackoff.getD c.pcb.nrtx 0))

theorem edit_rtt {p q : Pace} (h : Edit c.pcb l p q) (hfits : RttFits l c) (hp : p.rtt.Sound) :
    q.rtt.Sound ∧ Updated c p.rtt q.rtt := by
  cases h with
  | option | accept | restart | grow | connect | resend => exact ⟨hp, .refl⟩
  | newAck g env =>
    obtain ⟨hsa, hsaLt, hsv, hsum, -, -⟩ := hp
    have hp : p.rtt.sa = p.sa ∧ p.rtt.sv = p.sv := ⟨rfl, rfl⟩
    have hrto : toS16 (p.sa / 8 + p.sv) = p.rtt.sa / 8 + p.rtt.sv := toS16_eq (by omega) (by omega)
    rw [hrto]
    exact ⟨⟨hsa, hsaLt, hsv, hsum, by dsimp only [Pace.rtt]; omega, hsum⟩, .single (Rtt.Update.reset p.rtt)⟩
  | sample _ g env hsamples hsa hsv =>
    have hfits : p.rtt.Fits (c.pcb.ticks - c.pcb.rttest).toNat := by
      have hc : c.pcb.pace.rtt.Fits (c.pcb.ticks - c.pcb.rttest).toNat := hfits hsamples
      have hp : p.rtt.sa = c.pcb.pace.rtt.sa ∧ p.rtt.sv = c.pcb.pace.rtt.sv := ⟨hsa, hsv⟩
      rw [Rtt.Fits, hp.1, hp.2]
      exact hc
    have hshort : toS16 ((c.pcb.ticks - c.pcb.rttest).toNat : ℤ) = (c.pcb.ticks - c.pcb.rttest).toNat := by
      have hnonneg := hp.sa_nonneg
      have hlt := hfits.1
      exact toS16_eq (by omega) (by omega)
    rw [hshort, Pace.estimate_rtt hp (Int.natCast_nonneg _) hfits]
    exact ⟨hp.sample (Int.natCast_nonneg _) hfits, .single (Rtt.Update.sample p.rtt)⟩
  | backOff env hdue =>
    by_cases hstate : c.pcb.state = .synSent
    · rw [decide_eq_true hstate]
      exact ⟨hp, .refl⟩
    · rw [decide_eq_false hstate]
      obtain ⟨hsa, hsaLt, hsv, hsum, -, -⟩ := hp
      have hlt : (c.pcb.sa / 8 + c.pcb.sv) * 2 ^ tcpBackoff.getD c.pcb.nrtx 0 < 2 ^ 15 := hfits hdue hstate
      have hp : c.pcb.pace.rtt.sa = c.pcb.sa ∧ c.pcb.pace.rtt.sv = c.pcb.sv := ⟨rfl, rfl⟩
      rw [hp.1, hp.2] at hsum
      rw [hp.1] at hsa
      rw [hp.2] at hsv
      have hpos : 1 ≤ (c.pcb.sa / 8 + c.pcb.sv) * 2 ^ tcpBackoff.getD c.pcb.nrtx 0 :=
        one_le_mul_of_one_le_of_one_le (by omega) (one_le_pow₀ (by decide))
      have hrto : toS16 ((c.pcb.sa / 8 + c.pcb.sv) * 2 ^ tcpBackoff.getD c.pcb.nrtx 0) =
          (c.pcb.sa / 8 + c.pcb.sv) * 2 ^ tcpBackoff.getD c.pcb.nrtx 0 := toS16_eq (by omega) hlt
      have heq : (c.pcb.pace.backOff false (min c.pcb.cwnd c.pcb.sndWnd / 2)).rtt = { c.pcb.pace.rtt with
          rto := (c.pcb.pace.rtt.sa / 8 + c.pcb.pace.rtt.sv) * 2 ^ tcpBackoff.getD c.pcb.nrtx 0 } :=
        congrArg (Rtt.mk c.pcb.sa c.pcb.sv) hrto
      rw [heq]
      exact ⟨⟨hsa, hsaLt, hsv, hsum, hpos, hlt⟩, .single (Rtt.Update.backOff c.pcb.pace.rtt)⟩

theorem step_rtt (h : Conn.step l c = some c') (hfits : RttFits l c) (hc : c.pcb.pace.rtt.Sound) :
    c'.pcb.pace.rtt.Sound ∧ Updated c c.pcb.pace.rtt c'.pcb.pace.rtt := by
  have hedits := step_paced h
  generalize c'.pcb.pace = q at hedits
  induction hedits with
  | refl => exact ⟨hc, .refl⟩
  | tail _ hedit ih =>
    obtain ⟨hsound, hupdated⟩ := ih
    obtain ⟨hsound', hupdate⟩ := edit_rtt hedit hfits hsound
    exact ⟨hsound', hupdated.trans hupdate⟩

theorem starts_rtt {s : Pcb} (hs : s.Starts) : s.pace.rtt = ⟨0, 6, 6⟩ := by
  cases hs with
  | connecting => rfl
  | accepting iss ticks g mtu =>
    rw [Pcb.accepting, Pcb.tcpParseopt]
    split <;> rfl

/-- Every sample is below `2 ^ 15`. -/
def ShortSample : Label → Conn → Prop
  | .input g _, c => c.pcb.Samples g → (c.pcb.ticks - c.pcb.rttest).toNat < 2 ^ 15
  | _, _ => True

instance : (l : Label) → (c : Conn) → Decidable (ShortSample l c)
  | .input g _, c => inferInstanceAs (Decidable (c.pcb.Samples g → _))
  | .call _, _ | .recv .., _ | .inputDone _, _ | .refused _, _ | .fasttmr _, _ | .slowtmr _, _ => .isTrue trivial

theorem nil_length_le : ([] : List Byte).length ≤ 0xffff - 40 := Nat.zero_le _

/-- An acknowledgement without data. -/
def plainAck (seqno ackno : SeqNum) (wnd : BitVec 16) : InSeg :=
  ⟨seqno, ackno, wnd.toNat, false, false, false, true, none, [], wnd.isLt, nil_length_le⟩

/-- A byte is sent at tick 1, and the peer closes its window. -/
def probingLabels : List Label :=
  [.slowtmr ⟨true, 0, false, false, false⟩] ++ fedLabels ++
    [.call (.write [0] true false fun _ ↦ true), .call (.output true),
      .input { plainAck 1 1001 1000 with payload := [0], payload_length_le := by decide } ⟨true, true, 0, [], .ok⟩,
      .recv true true, .inputDone true,
      .input (plainAck 2 1001 0) ⟨true, true, 0, [], .ok⟩, .inputDone true]

/-- A tick at which no probe can be allocated. -/
def dryTick : Label := .slowtmr ⟨false, 0, false, false, false⟩

/-- The acknowledgement of the byte, and the window is open again. -/
def lateAck : Label := .input (plainAck 2 1002 1000) ⟨true, true, 0, [], .ok⟩

/-- What a tick does to the counters of the persist timer. -/
def probe (x : ℕ × ℕ) : ℕ × ℕ :=
  let cnt := (x.1 + 1) % 2 ^ 8
  if tcpPersistBackoff.getD (x.2 - 1) 0 ≤ cnt then
    (0, if x.2 < tcpPersistBackoff.length then x.2 + 1 else x.2)
  else (cnt, x.2)

/-- The connection after `k` ticks. -/
def probed (c : Conn) (k : ℕ) : Conn :=
  { c with pcb := { c.pcb with
      ticks := c.pcb.ticks + BitVec.ofNat 32 k
      persistCnt := (probe^[k] (0, 1)).1
      persistBackoff := (probe^[k] (0, 1)).2 } }

theorem probe_pos (k : ℕ) : 0 < (probe^[k] (0, 1)).2 := by
  induction k with
  | zero => decide
  | succ k ih =>
    rw [Function.iterate_succ_apply', probe]
    split_ifs
    · exact Nat.succ_pos _
    · exact ih
    · exact ih

set_option maxRecDepth 8000 in
/-- The longest interval between two probes begins again every 120 ticks. -/
theorem probe_period (j : ℕ) : probe^[189 + 120 * j] (0, 1) = (0, 7) := by
  induction j with
  | zero => decide
  | succ j ih =>
    have hperiod : probe^[120] (0, 7) = (0, 7) := by decide
    rw [show 189 + 120 * (j + 1) = 120 + (189 + 120 * j) by omega, Function.iterate_add_apply, ih, hperiod]

/-- Without a pbuf for the probe a tick only counts. -/
theorem tcpSlowtmr_dry {s : Pcb} (hgive : s.givesUp = false) (hpersist : 0 < s.persistBackoff) :
    s.tcpSlowtmr ⟨false, 0, false, false, false⟩ = { s with
      ticks := s.ticks + 1
      persistCnt := (probe (s.persistCnt, s.persistBackoff)).1
      persistBackoff := (probe (s.persistCnt, s.persistBackoff)).2 } := by
  have hnone : ∀ u : Pcb, u.tcpZeroWindowProbe false 0 = u := by
    intro u
    rw [Pcb.tcpZeroWindowProbe]
    split <;> rfl
  have hrexmit : ∀ u : Pcb, 0 < u.persistBackoff → u.slowtmrRexmit ⟨false, 0, false, false, false⟩ = { u with
      persistCnt := (probe (u.persistCnt, u.persistBackoff)).1
      persistBackoff := (probe (u.persistCnt, u.persistBackoff)).2 } := by
    intro u hu
    rw [Pcb.slowtmrRexmit, if_pos hu, probe]
    dsimp only
    rw [hnone]
    split_ifs <;> rfl
  have hgives : ({ s with ticks := s.ticks + 1 } : Pcb).givesUp = false := hgive
  rw [Pcb.tcpSlowtmr]
  dsimp only
  rw [hgives, if_neg Bool.false_ne_true, hrexmit { s with ticks := s.ticks + 1 } hpersist]
  rfl

theorem step_dryTick {c : Conn} (hphase : c.phase = .idle) (hstate : c.pcb.state = .established)
    (hnrtx : c.pcb.nrtx = 0) (k : ℕ) :
    guardStep ShortSample Conn.step dryTick (probed c k) = some (probed c (k + 1)) := by
  have hidle : ¬((probed c k).busy = true ∨ (probed c k).pcb.state = .closed ∨
      (probed c k).pcb.state = .timeWait) := by
    show ¬(decide (c.phase ≠ .idle) = true ∨ c.pcb.state = .closed ∨ c.pcb.state = .timeWait)
    rw [hphase, hstate]
    decide
  have hgive : (probed c k).pcb.givesUp = false := by
    show decide (c.pcb.state = .synSent ∧ c.pcb.nrtx = tcpSynmaxrtx ∨ c.pcb.nrtx = tcpMaxrtx) = false
    rw [hstate, hnrtx]
    decide
  refine guardStep_eq_some.2 ⟨trivial, ?_⟩
  rw [dryTick, step, if_neg hidle, tcpSlowtmr_dry hgive (probe_pos k), probed, probed,
    Function.iterate_succ_apply', BitVec.ofNat_add, ← BitVec.add_assoc]
  rfl

end Conn

end Lwip.Tcp
