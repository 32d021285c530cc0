import LwipPoc.Tcp.RcvWindow

/-!
# The room in the send buffer

`snd_buf` is what is left of `TCP_SND_BUF`: the sequence numbers from `lastack` to `snd_lbb` are charged
to it when they are given to data or to a flag, and credited when they are acknowledged.

**One number is credited without a charge.** `tcp_send_fin` puts the `FIN` on the last segment that waits
on `unsent`, and neither `snd_lbb` nor `snd_buf` says so, as they do when `tcp_enqueue_flags` gives it a
segment of its own. The peer acknowledges it all the same: `lastack` passes `snd_lbb`, and `snd_buf`
is larger than the buffer. Nothing else goes wrong: the account is kept up to an acknowledgement of a
number behind `snd_lbb`.
-/

namespace Lwip.Tcp

open Accounts (Edit Edits)

variable {acks : SeqNum → Prop} {data : Prop} {a b : Accounts}

/-- The sequence numbers that have been charged, and are not acknowledged. -/
def Accounts.charged (a : Accounts) : ℕ := (a.sndLbb - a.lastack).toNat

/-- **The account**: what is charged and what is left are the buffer. -/
structure Charged (acks : SeqNum → Prop) (a : Accounts) : Prop where
  total : a.sndBuf + a.charged = tcpSndBuf
  /-- Up to the `SYN` of the peer the own one is all there is. -/
  syn : a.state = .synSent → a.sndWndMax = 0 ∧ a.unsentOversize = 0 ∧ a.sndLbb = a.lastack + 1 ∧
    ∀ seg ∈ a.unacked ++ a.unsent, seg.seqno = a.lastack ∧ seg.len = 0
  /-- No number behind `snd_lbb` is acknowledged. -/
  acks : ∀ k, acks k → a.state ≠ .synSent ∧ (k - a.lastack).toNat ≤ a.charged

/-- What the account is about is as before. -/
theorem Charged.same (h : Charged acks a) (hbuf : b.sndBuf = a.sndBuf) (hlbb : b.sndLbb = a.sndLbb)
    (hlast : b.lastack = a.lastack) (hstate : b.state = a.state) (hmax : b.sndWndMax = a.sndWndMax)
    (hover : b.unsentOversize = 0 ∨ b.unsentOversize = a.unsentOversize)
    (hsub : ∀ seg ∈ b.unacked ++ b.unsent, seg ∈ a.unacked ++ a.unsent) : Charged acks b := by
  have hcharged : b.charged = a.charged := by rw [Accounts.charged, hlbb, hlast, Accounts.charged]
  refine ⟨by rw [hbuf, hcharged]; exact h.total, fun hs ↦ ?_, fun k hk ↦ ?_⟩
  · obtain ⟨hmax', hover', hlbb', hsegs⟩ := h.syn (hstate.symm.trans hs)
    refine ⟨hmax.trans hmax', hover.elim id fun ho ↦ ho.trans hover', ?_, fun seg hseg ↦ ?_⟩
    · rw [hlbb, hlast]
      exact hlbb'
    · rw [hlast]
      exact hsegs seg (hsub seg hseg)
  · obtain ⟨hs, hle⟩ := h.acks k hk
    rw [hstate, hlast, hcharged]
    exact ⟨hs, hle⟩

/-- What is done when the peer has sent its `SYN`: `snd_lbb` may go on, and the buffer is charged for it. -/
theorem Charged.charge (h : Charged acks a) (hbs : b.state ≠ .synSent) (n : ℕ) (hn : n ≤ a.sndBuf)
    (hbuf : b.sndBuf = a.sndBuf - n) (hlbb : b.sndLbb = a.sndLbb + BitVec.ofNat 32 n)
    (hlast : b.lastack = a.lastack) : Charged acks b := by
  have h1 : tcpSndBuf = 6432 := rfl
  have htotal := h.total
  have hcharged : b.charged = a.charged + n := by
    rw [Accounts.charged] at htotal ⊢
    rw [Accounts.charged, hlbb, hlast]
    bv_omega
  refine ⟨by omega, fun hs ↦ absurd hs hbs, fun k hk ↦ ?_⟩
  obtain ⟨-, hle⟩ := h.acks k hk
  rw [hlast]
  exact ⟨hbs, by omega⟩

/-- And what is acknowledged is credited. -/
theorem Charged.credit (h : Charged acks a) (hbs : b.state ≠ .synSent) {k : SeqNum}
    (hone : ∀ k', acks k' → k' = k) (hle : (k - a.lastack).toNat ≤ a.charged)
    (hbuf : b.sndBuf = toU16 (a.sndBuf + toU16 (k - a.lastack).toNat)) (hlbb : b.sndLbb = a.sndLbb)
    (hlast : b.lastack = k) : Charged acks b := by
  have h1 : tcpSndBuf = 6432 := rfl
  have htotal := h.total
  have hu16 : b.sndBuf = a.sndBuf + (k - a.lastack).toNat := by
    rw [hbuf, toU16, toU16, Nat.mod_eq_of_lt, Nat.mod_eq_of_lt] <;> omega
  have hcharged : b.charged + (k - a.lastack).toNat = a.charged := by
    rw [Accounts.charged] at htotal hle ⊢
    rw [Accounts.charged, hlbb, hlast]
    bv_omega
  refine ⟨by omega, fun hs ↦ absurd hs hbs, fun k' hk' ↦ ⟨hbs, ?_⟩⟩
  rw [hone k' hk', hlast, BitVec.sub_self]
  exact Nat.zero_le _

/-- The `SYN` is all that is charged, and it is credited. -/
theorem Charged.synAcked (h : Charged acks a) (hs : a.state = .synSent) {seg : TcpSeg} {rest : List TcpSeg}
    (hunacked : a.unacked = seg :: rest) (hbs : b.state ≠ .synSent) (hbuf : b.sndBuf = toU16 (a.sndBuf + 1))
    (hlbb : b.sndLbb = a.sndLbb) (hlast : b.lastack = seg.seqno + 1) : Charged acks b := by
  have h1 : tcpSndBuf = 6432 := rfl
  have htotal := h.total
  obtain ⟨-, -, hend, hsegs⟩ := h.syn hs
  obtain ⟨hseq, -⟩ := hsegs seg (by simp [hunacked])
  have hcharged : a.charged = 1 := by
    rw [Accounts.charged, hend]
    bv_omega
  have hnone : b.charged = 0 := by
    rw [Accounts.charged, hlbb, hlast, hseq, hend, BitVec.sub_self]
    rfl
  have hu16 : b.sndBuf = a.sndBuf + 1 := by
    rw [hbuf, toU16, Nat.mod_eq_of_lt]
    omega
  exact ⟨by omega, fun hb ↦ absurd hb hbs, fun k hk ↦ absurd hs (h.acks k hk).1⟩

theorem Accounts.Closable.ne_synSent (h : a.Closable) : a.state ≠ .synSent := by
  rcases h with hs | hs | hs <;> rw [hs] <;> nofun

/-- **An edit keeps the account.** -/
theorem Charged.edit (h : Charged acks a) (hone : ∀ k k', acks k → acks k' → k' = k)
    (hedit : Edit acks data a b) : Charged acks b := by
  have hsame : ∀ {c : Accounts}, c.state ≠ .synSent → c.sndBuf = a.sndBuf →
      c.charged = a.charged → c.lastack = a.lastack → Charged acks c := by
    intro c hne hbuf hcharged hlast
    refine ⟨by rw [hbuf, hcharged]; exact h.total, fun hs ↦ absurd hs hne, fun k hk ↦ ⟨hne, ?_⟩⟩
    rw [hlast, hcharged]
    exact (h.acks k hk).2
  cases hedit with
  | announce | accept | recved | fin | recount => exact ⟨h.total, h.syn, h.acks⟩
  | clear =>
    exact h.same rfl rfl rfl rfl rfl (Or.inl rfl) fun _ hx ↦ hx
  | sendHead seg rest hunsent =>
    refine h.same rfl rfl rfl rfl rfl (Or.inr rfl) fun x hx ↦ ?_
    rw [hunsent]
    rcases List.mem_append.1 hx with hx | hx
    · replace hx : x ∈ if 0 < seg.tcpLen then Pcb.insertUnacked seg a.unacked else a.unacked := hx
      split_ifs at hx
      · rcases List.mem_cons.1 ((insertUnacked_perm seg _).mem_iff.1 hx) with rfl | hx <;> simp [*]
      · simp [hx]
    · simp [show x ∈ rest from hx]
  | requeue => exact h.same rfl rfl rfl rfl rfl (Or.inr rfl) fun _ hx ↦ hx
  | rexmit seg rest oversize hunacked hover =>
    refine h.same rfl rfl rfl rfl rfl hover fun x hx ↦ ?_
    rw [hunacked]
    rcases List.mem_append.1 hx with hx | hx
    · simp [show x ∈ rest from hx]
    · rcases List.mem_cons.1 ((insertSorted_perm seg _).mem_iff.1 hx) with rfl | hx <;> simp [*]
  | mark qs seg hclosable => exact hsame hclosable.ne_synSent rfl rfl rfl
  | enqueue hclosable hlen hbuf => exact h.charge hclosable.ne_synSent 1 hbuf rfl rfl rfl
  | write v n clen q oversize hover hblank hbuf =>
    refine h.charge (fun hs ↦ hblank ?_) (v.length + n) hbuf rfl rfl rfl
    obtain ⟨hmax, hoversize, -, hsegs⟩ := h.syn hs
    refine ⟨hmax, hoversize, fun last hlast ↦ (hsegs last ?_).2⟩
    exact List.mem_append_right _ (List.mem_of_getLast? hlast)
  | turn state hfrom hover hto =>
    exact ⟨h.total, fun hs ↦ absurd hs hto, fun k hk ↦ ⟨hto, (h.acks k hk).2⟩⟩
  | drop state oversize hstate =>
    have hne : state ≠ .synSent := by
      rintro rfl
      cases hstate
    exact ⟨h.total, fun hs ↦ absurd hs hne, fun k hk ↦ ⟨hne, (h.acks k hk).2⟩⟩
  | remove state hover hstate =>
    have hne : state ≠ .synSent := by
      rintro rfl
      cases hstate
    exact ⟨h.total, fun hs ↦ absurd hs hne, fun k hk ↦ ⟨hne, (h.acks k hk).2⟩⟩
  | window wnd wndMax hstate => exact hsame hstate rfl rfl rfl
  | ack ackno p u hstate hack =>
    exact h.credit hstate (fun k' hk' ↦ hone _ _ hack hk') (h.acks _ hack).2 rfl rfl rfl
  | trim p u oversize hstate hunsent => exact hsame hstate rfl rfl rfl
  | synAcked seg rest rcvNxt wnd hstate hunacked =>
    exact h.synAcked hstate hunacked nofun rfl rfl rfl

theorem Charged.edits (h : Charged acks a) (hone : ∀ k k', acks k → acks k' → k' = k)
    (hedits : Edits acks data a b) : Charged acks b := by
  induction hedits with
  | refl => exact h
  | tail _ hedit ih => exact ih.edit hone hedit

/-! ### Runs -/

/-- **The condition**: no acknowledgement number is taken that is behind `snd_lbb`. -/
def AcksQueued : Label → Conn → Prop
  | .input g _, c => c.TakesAck g →
    (g.ackno - c.pcb.lastack).toNat ≤ (c.pcb.sndLbb - c.pcb.lastack).toNat
  | _, _ => True

instance (l : Label) (c : Conn) : Decidable (AcksQueued l c) :=
  match l with
  | .input g _ => inferInstanceAs (Decidable (c.TakesAck g →
      (g.ackno - c.pcb.lastack).toNat ≤ (c.pcb.sndLbb - c.pcb.lastack).toNat))
  | .call _ | .recv _ _ | .inputDone _ | .refused _ | .fasttmr _ | .slowtmr _ => .isTrue trivial

/-- What holds in every state of a run. -/
def Conn.Charged (c : Conn) : Prop := Tcp.Charged (fun _ ↦ False) c.pcb.accounts

/-- The acknowledgement number that a step takes. -/
def Conn.taken : Label → Conn → SeqNum → Prop
  | .input g _, c, ackno => c.TakesAck g ∧ ackno = g.ackno
  | _, _, _ => False

theorem Conn.taken_unique {l : Label} {c : Conn} (k k' : SeqNum) (h : taken l c k) (h' : taken l c k') :
    k' = k := by
  cases l with
  | input g env => exact h'.2.trans h.2.symm
  | _ => exact h.elim

theorem Conn.TakesAck.ne_synSent {c : Conn} {g : InSeg} (h : c.TakesAck g) : c.pcb.state ≠ .synSent := by
  obtain ⟨-, -, hs | ⟨hs, -⟩, -⟩ := h
  · rw [hs]
    nofun
  · intro hsyn
    rw [hsyn] at hs
    cases hs

theorem Conn.Charged.taking {c : Conn} {l : Label} (h : c.Charged) (hqueued : AcksQueued l c) :
    Tcp.Charged (taken l c) c.pcb.accounts := by
  refine ⟨h.total, h.syn, fun k hk ↦ ?_⟩
  cases l with
  | input g env =>
    obtain ⟨htakes, rfl⟩ := hk
    exact ⟨htakes.ne_synSent, hqueued htakes⟩
  | _ => exact hk.elim

theorem Conn.Charged.step {c c' : Conn} {l : Label} (h : c.Charged) (hqueued : AcksQueued l c)
    (hstep : Conn.step l c = some c') : c'.Charged := by
  have hedits : ∃ a, Edits (taken l c) False _ a ∧ Edits (taken l c) True a _ :=
    Conn.step_edits_of hstep fun g env hl htakes ↦ hl ▸ ⟨htakes, rfl⟩
  obtain ⟨a, hcalls, hdata⟩ := hedits
  have hafter := ((h.taking hqueued).edits taken_unique hcalls).edits taken_unique hdata
  exact ⟨hafter.total, hafter.syn, fun _ ↦ False.elim⟩

theorem Pcb.Starts.charged {s : Pcb} (h : s.Starts) : (Conn.start s).Charged := by
  have h1 : tcpSndBuf = 6432 := rfl
  cases h with
  | connecting iss ticks mtu =>
    rw [Conn.Charged, show (Conn.start (Pcb.connecting iss ticks mtu)).pcb.accounts = _ from
      connecting_accounts iss ticks mtu]
    refine ⟨?_, fun _ ↦ ⟨rfl, rfl, rfl, ?_⟩, fun _ ↦ False.elim⟩
    · rw [Accounts.charged]
      dsimp only
      bv_omega
    · simp [TcpSeg.len, toU16]
  | accepting iss ticks g mtu =>
    rw [Conn.Charged, show (Conn.start (Pcb.accepting iss ticks g mtu)).pcb.accounts = _ from
      accepting_accounts iss ticks g mtu]
    refine ⟨?_, fun hs ↦ ?_, fun _ ↦ False.elim⟩
    · rw [Accounts.charged]
      dsimp only
      bv_omega
    · cases hs

/-- **As long as nothing behind `snd_lbb` is acknowledged**, `snd_buf` and the sequence numbers from
`lastack` to `snd_lbb` are the buffer, in every state of a run and in the middle of a step. -/
theorem Conn.sndBuf_kept {s : Pcb} (hs : s.Starts) {ls : List Label} {c : Conn}
    (h : runLabels (guardStep AcksQueued Conn.step) ls (Conn.start s) = some c) :
    c.pcb.sndBuf + (c.pcb.sndLbb - c.pcb.lastack).toNat = tcpSndBuf ∧
      ∀ l u, c.Entered l u → u.sndBuf + (u.sndLbb - u.lastack).toNat = tcpSndBuf := by
  have hcharged : c.Charged := by
    refine runLabels_invariant hs.charged (fun l c c' hc hl ↦ ?_) h
    obtain ⟨hqueued, hl⟩ := guardStep_eq_some.1 hl
    exact hc.step hqueued hl
  refine ⟨hcharged.total, fun l u hu ↦ ?_⟩
  have hkept : Tcp.Charged (fun _ ↦ False) u.accounts := hcharged.edits (fun _ _ hk ↦ hk.elim) hu.edits
  exact hkept.total

/-- The application writes a byte and closes the connection, and the peer acknowledges `ackno`. -/
def closedLabels (ackno : SeqNum) : List Label :=
  fedLabels ++ [.call (.write [0] true false fun _ ↦ true), .call (.close true true),
    .input ⟨1, ackno, 1000, false, false, false, true, none, [], fed_window_lt, fed_payload_le⟩
      ⟨true, true, 0, [], .ok⟩]

/-- The byte is acknowledged, and the `FIN` that went with it is not. -/
theorem Conn.sndBuf_kept_closed :
    ∃ c, runLabels (guardStep AcksQueued Conn.step) (closedLabels 1002) (Conn.start fedPcb) = some c ∧
      c.pcb.lastack = 1002 ∧ c.pcb.sndBuf + (c.pcb.sndLbb - c.pcb.lastack).toNat = tcpSndBuf := by
  refine exists_run_of_observe (fun c ↦ c.pcb.lastack) 1002 (by decide) fun c hrun hobs ↦ ?_
  exact ⟨hobs, (Conn.sndBuf_kept (Pcb.Starts.accepting ..) hrun).1⟩

/-- **The `FIN` is credited without a charge**: when it is acknowledged, there is more room than the buffer
has. -/
theorem exists_sndBuf_exceeds :
    ∃ c, runLabels Conn.step (closedLabels 1003) (Conn.start fedPcb) = some c ∧
      c.pcb.sndBuf + (c.pcb.sndLbb - c.pcb.lastack).toNat ≠ tcpSndBuf ∧ c.pcb.sndBuf = tcpSndBuf + 1 := by
  refine exists_run_of_observe (fun c ↦ (c.pcb.sndBuf, c.pcb.sndLbb - c.pcb.lastack)) (tcpSndBuf + 1, -1)
    (by decide) fun c _ hobs ↦ ?_
  obtain ⟨hbuf, hcharged⟩ := Prod.mk.inj hobs
  rw [hbuf, hcharged]
  decide

end Lwip.Tcp
