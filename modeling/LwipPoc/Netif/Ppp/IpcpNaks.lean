import LwipPoc.Netif.Ppp.IpcpRequests

/-!
# The loop of `ipcp_nakci`

The options of a Configure-Nak that were not in the request are read in a loop, which takes the length of an option from the
packet, and does not check that it covers the option.

* The loop runs for ever exactly if it comes to an option of an unknown type whose length is 0 (`ipcp_nakci_returns_iff`).
  Any peer can send one.
* A peer that runs this program does not (`ipcp_peers_return`).
-/

namespace Lwip.Netif.Ppp

open Fsm

variable {go : IpcpOptions} {n : IpcpNak} {p : List (BitVec 8)} {r : Ipcp} {rej : Bool}

/-! ### Where the loop stays -/

/-- The type of an option is none of those that the loop knows. -/
def UnknownCi (citype : BitVec 8) : Prop := citype ≠ ciCompresstype ∧ citype ≠ ciAddrs ∧ citype ≠ ciAddr

/-- The loop comes to an option of an unknown type whose length is 0, which is followed by itself. -/
inductive NakHangs (go : IpcpOptions) : IpcpNak → List (BitVec 8) → Prop
  | stays {n : IpcpNak} {p : List (BitVec 8)} (long : cilenVoid < p.length) (zero : (p.getD 1 0).toNat = 0)
      (unknown : UnknownCi (p.getD 0 0)) : NakHangs go n p
  | skips {n n' : IpcpNak} {p : List (BitVec 8)} (long : cilenVoid < p.length) (pos : 0 < (p.getD 1 0).toNat)
      (inside : (p.getD 1 0).toNat ≤ p.length)
      (good : nakciOther go n (p.getD 0 0) (p.getD 1 0).toNat (p.drop 2) = some n')
      (rest : NakHangs go n' (p.drop (p.getD 1 0).toNat)) : NakHangs go n p

theorem nakciOther_unknown {citype : BitVec 8} (h : UnknownCi citype) (cilen : ℕ) (q : List (BitVec 8)) :
    nakciOther go n citype cilen q = some n := by
  rw [nakciOther, if_neg h.1, if_neg h.2.1, if_neg h.2.2]

/-- An option of length 0 is bad if its type is known. -/
theorem unknown_of_nakciOther_zero {n' : IpcpNak} {citype : BitVec 8} {q : List (BitVec 8)}
    (h : nakciOther go n citype 0 q = some n') : UnknownCi citype := by
  rw [nakciOther] at h
  split_ifs at h with hvj hbad haddrs hbad haddr hbad
  · simp [cilenVj, cilenCompress] at hbad
  · simp [cilenAddrs] at hbad
  · simp [cilenAddr] at hbad
  · exact ⟨hvj, haddrs, haddr⟩

attribute [local simp] nakciLoop

theorem nakciLoop_succ {fuel : ℕ} (hlong : cilenVoid < p.length) : nakciLoop go (fuel + 1) n p =
    if p.length < (p.getD 1 0).toNat then some none
    else match nakciOther go n (p.getD 0 0) (p.getD 1 0).toNat (p.drop 2) with
      | none => some none
      | some n => nakciLoop go fuel n (p.drop (p.getD 1 0).toNat) := by
  rw [nakciLoop]
  exact if_neg (Nat.not_le.2 hlong)

/-- The loop goes on for as many rounds as it is given. -/
theorem NakHangs.nakciLoop_eq_none (h : NakHangs go n p) (fuel : ℕ) : nakciLoop go fuel n p = none := by
  induction fuel generalizing n p with
  | zero =>
    cases h with
    | stays long => rw [nakciLoop, if_neg (Nat.not_le.2 long)]
    | skips long => rw [nakciLoop, if_neg (Nat.not_le.2 long)]
  | succ fuel ih =>
    cases h with
    | stays long zero unknown =>
      rw [nakciLoop_succ long, if_neg (by omega), zero, nakciOther_unknown unknown]
      exact ih (.stays long zero unknown)
    | skips long pos inside good rest =>
      rw [nakciLoop_succ long, if_neg (Nat.not_lt.2 inside), good]
      exact ih rest

/-- Otherwise it ends in as many rounds as there are bytes. -/
theorem nakciLoop_isSome {fuel : ℕ} (h : ¬NakHangs go n p) (hfuel : p.length ≤ fuel) : (nakciLoop go fuel n p).isSome := by
  induction fuel generalizing n p with
  | zero =>
    rw [nakciLoop, if_pos (Nat.le_trans hfuel (Nat.zero_le _))]
    rfl
  | succ fuel ih =>
    rcases Nat.lt_or_ge cilenVoid p.length with hlong | hshort
    · rw [nakciLoop_succ hlong]
      split_ifs with hbad
      · rfl
      cases hgood : nakciOther go n (p.getD 0 0) (p.getD 1 0).toNat (p.drop 2) with
      | none => rfl
      | some n' =>
        rcases Nat.eq_zero_or_pos (p.getD 1 0).toNat with hzero | hpos
        · rw [hzero] at hgood
          exact absurd (.stays hlong hzero (unknown_of_nakciOther_zero hgood)) h
        · refine ih (fun hrest ↦ h (.skips hlong hpos (Nat.not_lt.1 hbad) hgood hrest)) ?_
          rw [List.length_drop]
          omega
    · rw [nakciLoop, if_pos hshort]
      rfl

/-- **When `ipcp_nakci` returns.** It does not exactly if, behind the options that were asked for, its loop comes to an option of
an unknown type whose length is 0; otherwise it returns in as many rounds as there are bytes. -/
theorem ipcp_nakci_returns_iff (s : LinkState) (r : Ipcp) (p : List (BitVec 8)) :
    ((∃ fuel, (ipcpNakci fuel s r p).isSome) ↔
      ¬NakHangs r.gotoptions (nakciOptions r.gotoptions p).1 (nakciOptions r.gotoptions p).2) ∧
    ((∃ fuel, (ipcpNakci fuel s r p).isSome) →
      (ipcpNakci (nakciOptions r.gotoptions p).2.length s r p).isSome) := by
  simp only [ipcpNakci, Option.isSome_map]
  refine ⟨⟨fun h hhangs ↦ ?_, fun h ↦ ⟨_, nakciLoop_isSome h (Nat.le_refl _)⟩⟩, fun h ↦ ?_⟩
  · obtain ⟨fuel, hfuel⟩ := h
    rw [hhangs.nakciLoop_eq_none] at hfuel
    cases hfuel
  · obtain ⟨fuel, hfuel⟩ := h
    refine nakciLoop_isSome (fun hhangs ↦ ?_) (Nat.le_refl _)
    rw [hhangs.nakciLoop_eq_none] at hfuel
    cases hfuel

/-! ### Between two ends -/

/-- A list of options, each with its length. -/
inductive Framed : List (BitVec 8) → Prop
  | nil : Framed []
  | cons {a b : BitVec 8} {body rest : List (BitVec 8)} (hb : b.toNat = body.length + 2) (h : Framed rest) :
    Framed (a :: b :: body ++ rest)

theorem Framed.append {q q' : List (BitVec 8)} (h : Framed q) (h' : Framed q') : Framed (q ++ q') := by
  induction h with
  | nil => exact h'
  | cons hb _ ih =>
    rw [List.append_assoc]
    exact .cons hb ih

theorem Framed.single {a b : BitVec 8} {body : List (BitVec 8)} (hb : b.toNat = body.length + 2) :
    Framed (a :: b :: body) := by
  rw [← List.append_nil (a :: b :: body)]
  exact .cons hb .nil

/-- A list of options that may be cut off at the end. -/
def Aligned (p : List (BitVec 8)) : Prop := ∃ q, Framed q ∧ p <+: q

theorem Aligned.of_take {q : List (BitVec 8)} (h : Framed q) (k : ℕ) : Aligned (q.take k) := ⟨q, h, List.take_prefix k q⟩

/-- The next option starts where the length of the first one says. -/
theorem Aligned.next (h : Aligned p) (hlen : 2 ≤ p.length) :
    2 ≤ (p.getD 1 0).toNat ∧ Aligned (p.drop (p.getD 1 0).toNat) := by
  obtain ⟨q, hq, hp⟩ := h
  obtain ⟨a, b, p, rfl⟩ := short_cons hlen
  cases hq with
  | nil => exact absurd hp (by simp)
  | @cons a' b' body rest hb hrest =>
    rw [List.cons_append, List.cons_append, List.cons_prefix_cons, List.cons_prefix_cons] at hp
    obtain ⟨rfl, rfl, hp⟩ := hp
    show 2 ≤ b.toNat ∧ Aligned ((a :: b :: p).drop b.toNat)
    rw [hb]
    refine ⟨Nat.le_add_left 2 _, rest, hrest, ?_⟩
    show p.drop body.length <+: rest
    rw [List.prefix_iff_eq_take.1 hp, List.drop_take, List.drop_left]
    exact List.take_prefix _ _

theorem Aligned.not_hangs (h : Aligned p) : ¬NakHangs go n p := by
  intro hhangs
  induction hhangs with
  | stays long zero => exact absurd (h.next (Nat.le_of_lt long)).1 (by omega)
  | skips long _ _ _ _ ih => exact ih (h.next (Nat.le_of_lt long)).2

theorem Aligned.drop {cilen : ℕ} (h : Aligned p) (htwo : 2 ≤ cilen) (hlen : cilen ≤ p.length)
    (hcilen : (p.getD 1 0).toNat = cilen) : Aligned (p.drop cilen) := hcilen ▸ (h.next (Nat.le_trans htwo hlen)).2

/-- An option is read, or nothing. -/
theorem Aligned.reads {c : Prop} [Decidable c] {x : IpcpNak × List (BitVec 8)} (h : Aligned p) (hx : c → Aligned x.2) :
    Aligned (if c then x else (n, p)).2 := by
  split_ifs with hc
  · exact hx hc
  · exact h

theorem Aligned.nakciaddr (h : Aligned p) : Aligned (nakciaddr go n p).2 := by
  rw [Ppp.nakciaddr]
  refine h.reads fun hmatch ↦ ?_
  simp only [Bool.and_eq_true, decide_eq_true_eq] at hmatch
  have hdrop := h.drop (by split_ifs <;> decide) hmatch.1.1.2 hmatch.1.2
  cases hold : go.oldAddrs <;> simpa [getLong, cilenAddr, cilenAddrs, hold] using hdrop

theorem Aligned.nakcidns {opt : BitVec 8} {neg : Bool} {set : BitVec 32 → IpcpOptions → IpcpOptions} (h : Aligned p) :
    Aligned (nakcidns opt neg set n p).2 := by
  rw [Ppp.nakcidns]
  refine h.reads fun hmatch ↦ ?_
  simp only [Bool.and_eq_true, decide_eq_true_eq] at hmatch
  simpa [getLong, cilenAddr] using h.drop (by decide) hmatch.1.2 hmatch.1.1.2

theorem snd_ite {c : Prop} [Decidable c] {x y : IpcpNak × List (BitVec 8)} {q : List (BitVec 8)} (hx : c → x.2 = q)
    (hy : ¬c → y.2 = q) : (if c then x else y).2 = q := by
  split_ifs with hc
  · exact hx hc
  · exact hy hc

theorem Aligned.nakcivj (h : Aligned p) : Aligned (nakcivj go n p).2 := by
  rw [Ppp.nakcivj]
  refine h.reads fun hmatch ↦ ?_
  simp only [Bool.and_eq_true, Bool.or_eq_true, decide_eq_true_eq] at hmatch
  obtain ⟨⟨⟨-, hcilen⟩, hlen⟩, -⟩ := hmatch
  have hnew : (getChar (getChar (getShort (p.drop 2)).2).2).2 = p.drop cilenVj := by
    simp [getChar, getShort, cilenVj, List.drop_drop, List.tail_drop]
  have hold : (getShort (p.drop 2)).2 = p.drop cilenCompress := by simp [getShort, cilenCompress]
  have hdrop := h.drop (by rcases hcilen with hcilen | hcilen <;> rw [hcilen] <;> decide) hlen rfl
  refine Eq.mpr (congrArg Aligned ?_) hdrop
  refine (snd_ite (fun hvj ↦ snd_ite ?_ ?_) (fun hvj ↦ snd_ite ?_ ?_))
  · exact fun _ ↦ hnew.trans (by rw [hvj])
  · exact fun _ ↦ hnew.trans (by rw [hvj])
  · exact fun _ ↦ hold.trans (by rw [hcilen.resolve_right hvj])
  · exact fun _ ↦ hold.trans (by rw [hcilen.resolve_right hvj])

/-- The options of the request are read by their lengths. -/
theorem Aligned.nakciOptions (h : Aligned p) : Aligned (nakciOptions go p).2 := by
  rw [Ppp.nakciOptions]
  dsimp only
  exact Aligned.nakcidns (Aligned.nakcidns (Aligned.nakcivj (Aligned.nakciaddr h)))

/-! ### What an end sends -/

variable {out next : List (BitVec 8)} {rc orc : BitVec 8}

theorem length_putLong_drop {a : BitVec 32} {q : List (BitVec 8)} (h : ¬q.length + 2 ≠ cilenAddr) :
    (putLong a ++ q.drop 4).length = q.length := by
  have hlen : q.length + 2 = 6 := not_not.1 h
  rw [List.length_append, List.length_drop]
  show 4 + (q.length - 4) = q.length
  omega

theorem length_reqciServer (addr : BitVec 32) (q : List (BitVec 8)) :
    (reqciServer addr r (q.length + 2) q).2.1.length = q.length := by
  rw [reqciServer]
  split_ifs with hrej hne
  · rfl
  · exact length_putLong_drop (not_or.1 hrej).2
  · rfl

theorem length_reqciAddr (q : List (BitVec 8)) : (reqciAddr rej r (q.length + 2) q).2.1.length = q.length := by
  rw [reqciAddr]
  dsimp only
  split_ifs with hrej hne hdisagree
  · rfl
  · rfl
  · exact length_putLong_drop (by simpa using hrej : _ ∧ _).2
  · rfl
  · rfl

/-- An option keeps its length. -/
theorem length_reqciOption (citype : BitVec 8) (q : List (BitVec 8)) :
    (reqciOption rej r citype (q.length + 2) q).2.1.length = q.length := by
  rw [reqciOption]
  split_ifs
  · exact length_reqciAddr q
  · exact length_reqciServer _ q
  · exact length_reqciServer _ q
  · exact length_reqciServer _ q
  · exact length_reqciServer _ q
  · rw [reqciVj]
    dsimp only
    split_ifs <;> simp only [List.length_set]
  · rfl

/-- The options of an answer, but of one that rejects, have their lengths. -/
def Listed (code : BitVec 8) (out : List (BitVec 8)) : Prop := code = confrej ∨ Framed out

theorem listed_reqciEnd {ci : List (BitVec 8)} (horc : IsAnswer orc) (hci : orc = confrej ∨ Framed ci) (h : Listed rc out) :
    Listed (reqciEnd rej orc ci rc out).1 (reqciEnd rej orc ci rc out).2 := by
  rw [reqciEnd]
  rcases horc with rfl | rfl | rfl
  · have hframed := hci.resolve_left codes_ne.2.2.2.2.1
    by_cases hrc : rc = confack
    · have hout := h.resolve_left (by rw [hrc]; exact codes_ne.2.2.2.2.1)
      simpa [hrc] using .inr (hout.append hframed)
    · simpa [hrc] using h
  · have hframed := hci.resolve_left codes_ne.2.2.2.2.2
    cases rej
    · by_cases hrc : rc = confrej
      · simpa [hrc] using h
      · have hout := h.resolve_left hrc
        by_cases hack : rc = confack
        · simpa [hack] using .inr hframed
        · simpa [hrc, hack] using .inr (hout.append hframed)
    · refine .inl ?_
      dsimp only
      split_ifs <;> simp_all
  · refine .inl ?_
    dsimp only
    split_ifs <;> simp_all

theorem listed_reqciLoop (rej : Bool) (next : List (BitVec 8)) (fuel : ℕ) (h : Listed rc out) :
    Listed (reqciLoop rej fuel next rc out r).1 (reqciLoop rej fuel next rc out r).2.1 := by
  induction fuel generalizing next rc out r with
  | zero => exact h
  | succ fuel ih =>
    rcases option_cases next with rfl | ⟨hnil, hbad⟩ | ⟨a, b, body, rest, rfl, hb⟩
    · exact h
    · rw [reqciLoop_bad hnil hbad]
      exact listed_reqciEnd (.inr (.inr rfl)) (.inl rfl) h
    · rw [reqciLoop_option hb]
      refine ih _ (listed_reqciEnd (sound_reqciOption rej r a _ body).1 (.inr (.single ?_)) h)
      rw [length_reqciOption, hb]

/-- The options of a Configure-Nak have their lengths. -/
theorem framed_ipcpReqci {inp : List (BitVec 8)} (h : (ipcpReqci r inp rej).1 = confnak) :
    Framed (ipcpReqci r inp rej).2.1 := by
  have hloop : Listed _ _ := listed_reqciLoop rej inp inp.length
    (r := { r with cisReceived := true, hisoptions := {} }) (.inr .nil : Listed confack [])
  revert h
  rw [ipcpReqci]
  dsimp only
  split_ifs with hask hack
  · exact fun _ ↦ .single (by rfl)
  · intro _
    exact (hloop.resolve_left hask.1).append (.single (by rfl))
  · exact fun h ↦ hloop.resolve_left (by rw [h]; exact codes_ne.2.2.2.2.2)

/-- The options of the Configure-Naks that are sent have their lengths, as far as they are sent. -/
def FsmAct.NakAligned : FsmAct → Prop
  | .sdata code _ data => code = confnak → Aligned data
  | _ => True

theorem stable_nakAligned : Stable ipcpCallbacks fun _ acts ↦ ∀ a ∈ acts, a.NakAligned where
  resetci _ _ _ _ h := h
  cilen _ _ _ _ h := h
  addci _ _ _ _ _ h := h
  ackci _ _ _ _ _ _ h := h
  nakci _ _ _ _ _ _ h := h
  rejci _ _ _ _ _ _ h := h
  reqci reqci hreqci r inp rej i acts h := by
    obtain rfl : ipcpReqci = reqci := Option.some.inj hreqci
    refine List.forall_mem_append.2 ⟨h, List.forall_mem_singleton.2 fun hnak ↦ ?_⟩
    exact .of_take (framed_ipcpReqci hnak) _
  call a ha _ _ h := by
    refine List.forall_mem_append.2 ⟨h, List.forall_mem_singleton.2 ?_⟩
    simp only [FsmCallbacks.told, List.mem_cons, List.not_mem_nil, or_false] at ha
    rcases ha with rfl | rfl | rfl | rfl <;> exact trivial
  retransmit _ _ _ _ h := h
  extcode _ _ _ _ _ _ _ h := h
  sdata _ _ _ _ _ hcode h :=
    List.forall_mem_append.2 ⟨h, List.forall_mem_singleton.2 fun hnak ↦ absurd hnak hcode⟩

/-- **An end is not hung by its peer if the peer runs this program.** In every run of two ends over a line that loses, repeats
and reorders packets, `ipcp_nakci` returns for every Configure-Nak that an end can be given. -/
theorem ipcp_peers_return (ci : Bool → Ipcp) (passive restart silent : Bool → Bool) {es : List (Bool × FsmEvent)}
    {s : Bool → Fsm Ipcp}
    (hrun : runLabels (peersStep ipcpCallbacks) es
      (fun p ↦ { fsmInit (ci p) with passive := passive p, restart := restart p, silent := silent p }) = some s) (p : Bool)
    {inpacket : List (BitVec 8)} (hcarried : Carried (.input inpacket) (s !p)) {i : BitVec 8} {inp : List (BitVec 8)}
    (hread : Fsm.Reads (.input inpacket) confnak i inp) :
    (ipcpNakci (nakciOptions (s p).ci.gotoptions inp).2.length (s p).state (s p).ci inp).isSome := by
  have hacts (q : Bool) : (∀ a ∈ (s q).acts, a.Short) ∧ ∀ a ∈ (s q).acts, a.NakAligned := by
    refine runLabels_invariant (I := fun s ↦ ∀ q, (∀ a ∈ (s q).acts, a.Short) ∧ ∀ a ∈ (s q).acts, a.NakAligned)
      (fun q ↦ ⟨List.forall_mem_nil _, List.forall_mem_nil _⟩) (fun e s s' h he q ↦ ?_) hrun q
    obtain ⟨p, e⟩ := e
    rw [peersStep] at he
    split_ifs at he
    obtain ⟨f', hf, rfl⟩ := Option.map_eq_some_iff.1 he
    rcases eq_or_ne q p with rfl | hne
    · rw [Function.update_self]
      obtain ⟨l, hl, hshort⟩ := (stable_grows ipcpCallbacks _).step (grows_refl _) hf
      exact ⟨hl ▸ List.forall_mem_append.2 ⟨(h q).1, hshort⟩, stable_nakAligned.step (h q).2 hf⟩
    · rw [Function.update_of_ne hne]
      exact h q
  have haligned : Aligned inp := (hacts !p).2 _ (mem_acts_of_reads (hacts !p).1 hcarried hread) rfl
  rw [ipcpNakci]
  simp only [Option.isSome_map]
  exact nakciLoop_isSome haligned.nakciOptions.not_hangs (Nat.le_refl _)

/-- An end that does not know the name servers reads their addresses. -/
theorem ipcp_peers_return_named :
    ∃ s, runLabels (peersStep ipcpCallbacks)
        [(false, .opens), (false, .lowerup), (true, .opens), (true, .lowerup),
          (true, .input [1, 1, 0, 28, 3, 6, 10, 0, 0, 2, 2, 6, 0, 45, 15, 0, 129, 6, 0, 0, 0, 0, 131, 6, 0, 0, 0, 0])]
        (fun p ↦ { fsmInit (namedEnds p) with passive := false, restart := false, silent := false }) = some s ∧
      (ipcpNakci (nakciOptions (s false).ci.gotoptions [129, 6, 8, 8, 8, 8, 131, 6, 8, 8, 4, 4]).2.length (s false).state
        (s false).ci [129, 6, 8, 8, 8, 8, 131, 6, 8, 8, 4, 4]).isSome := by
  refine exists_run_of_observe (fun s ↦ decide (Carried (.input (wire confnak 1 [129, 6, 8, 8, 8, 8, 131, 6, 8, 8, 4, 4]))
    (s true))) true (by decide) fun s hrun hobs ↦ ?_
  exact ipcp_peers_return namedEnds _ _ _ hrun false (of_decide_eq_true hobs)
    ⟨_, _, rfl, header_wire confnak 1 (by decide)⟩

end Lwip.Netif.Ppp
