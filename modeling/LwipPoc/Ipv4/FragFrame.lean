import LwipPoc.Ipv4.FragSpec

/-!
# What is left of the packet

`ip_frag` walks along pbufs that are not its own: others hold them, and go on to use them. When the fragments that it
has sent are freed, the references are what they were (`ipFrag_released`). But the walk of the version that mirrors
the pbufs is in the pbufs themselves, whose `payload` and `len` it moves, and not `tot_len`; the other two versions
copy, and move nothing.
-/

namespace Lwip.Ipv4

open Lwip.Core IpHdr

/-- A pbuf that has been moved by `k` bytes, with `r` more references. -/
def FragPbuf.after (p : FragPbuf) (k r : ℕ) : FragPbuf :=
  ⟨{ p.pbuf with payload := p.pbuf.payload.drop k }, p.moved + k, p.ref + r⟩

namespace Frag

variable {v : FragVariant} {env : FragEnv} {hdr : ℕ → BitVec 8} {last omf : Bool} {tmp cop i j n fuel : ℕ}
  {s s' : FragState} {ps qs : List FragPbuf} {o : ErrT} {k : ℕ → ℕ} {is js : List ℕ}

/-! ### Moved pbufs -/

/-- The pbufs of a packet, each of which has been moved, and is mirrored at these positions. -/
def advanced (k : ℕ → ℕ) (is : List ℕ) (qs : List FragPbuf) : List FragPbuf :=
  qs.mapIdx fun j p ↦ p.after (k j) (is.count j)

theorem getElem?_advanced (k : ℕ → ℕ) (is : List ℕ) (qs : List FragPbuf) (j : ℕ) :
    (advanced k is qs)[j]? = qs[j]?.map fun p ↦ p.after (k j) (is.count j) :=
  List.getElem?_mapIdx

theorem after_zero (p : FragPbuf) : p.after 0 0 = p := rfl

/-- What is not moved, and not mirrored. -/
theorem advanced_zero (qs : List FragPbuf) : advanced (fun _ ↦ 0) [] qs = qs := by
  refine List.ext_getElem? fun j ↦ ?_
  rw [getElem?_advanced]
  simp [after_zero]

theorem advanced_eq_iff : advanced k [] qs = qs ↔ ∀ j < qs.length, k j = 0 := by
  constructor
  · intro h j hj
    have hat := congrArg (·[j]?) h
    simp only [getElem?_advanced, List.getElem?_eq_getElem hj, Option.map_some, Option.some.injEq] at hat
    have hmoved : qs[j].moved + k j = qs[j].moved := congrArg FragPbuf.moved hat
    omega
  · intro h
    refine List.ext_getElem? fun j ↦ ?_
    rw [getElem?_advanced]
    rcases Nat.lt_or_ge j qs.length with hj | hj
    · rw [h j hj, List.count_nil, List.getElem?_eq_getElem hj, Option.map_some, after_zero]
    · rw [List.getElem?_eq_none hj, Option.map_none]

/-- One of them is moved. -/
theorem advanced_move (k : ℕ → ℕ) (is : List ℕ) (qs : List FragPbuf) (i n : ℕ) :
    (advanced k is qs).modify i (fun p ↦ { p with
      pbuf := { p.pbuf with payload := p.pbuf.payload.drop n }, moved := p.moved + n }) =
      advanced (Function.update k i (k i + n)) is qs := by
  refine List.ext_getElem? fun j ↦ ?_
  rw [getElem?_advanced]
  rcases eq_or_ne i j with rfl | hij
  · rw [List.getElem?_modify_eq, getElem?_advanced, Function.update_self]
    rcases qs[i]? with _ | p
    · rfl
    · simp [FragPbuf.after, List.drop_drop, Nat.add_assoc]
  · rw [List.getElem?_modify_ne _ _ hij, getElem?_advanced, Function.update_of_ne hij.symm]

/-- One of them gets a reference. -/
theorem advanced_ref (k : ℕ → ℕ) (is : List ℕ) (qs : List FragPbuf) (i : ℕ) :
    (advanced k is qs).modify i (fun p ↦ { p with ref := p.ref + 1 }) = advanced k (is ++ [i]) qs := by
  refine List.ext_getElem? fun j ↦ ?_
  rw [getElem?_advanced, List.count_append]
  rcases eq_or_ne i j with rfl | hij
  · rw [List.getElem?_modify_eq, getElem?_advanced, List.count_singleton_self]
    rcases qs[i]? with _ | p
    · rfl
    · simp [FragPbuf.after, Nat.add_assoc]
  · rw [List.getElem?_modify_ne _ _ hij, getElem?_advanced, List.count_singleton, if_neg (by simpa using hij),
      Nat.add_zero]

/-- And loses it. -/
theorem unrefAt_advanced (k : ℕ → ℕ) (is js : List ℕ) (qs : List FragPbuf) :
    unrefAt js (advanced k (is ++ js) qs) = advanced k is qs := by
  induction js with
  | nil => rw [List.append_nil]; rfl
  | cons i js ih =>
    have hunref : (advanced k (is ++ i :: js) qs).modify i (fun p ↦ { p with ref := p.ref - 1 }) =
        advanced k (is ++ js) qs := by
      refine List.ext_getElem? fun j ↦ ?_
      rw [getElem?_advanced, List.count_append]
      rcases eq_or_ne i j with rfl | hij
      · rw [List.getElem?_modify_eq, getElem?_advanced, List.count_append, List.count_cons_self]
        rcases qs[i]? with _ | p
        · rfl
        · simp [FragPbuf.after, ← Nat.add_assoc]
      · rw [List.getElem?_modify_ne _ _ hij, getElem?_advanced, List.count_append, List.count_cons_of_ne hij]
    rw [unrefAt, List.foldl_cons, hunref]
    exact ih

/-! ### Every round -/

/-- The mirrors: what is returned is what is held. -/
theorem mirrorLoop_frame {m : ℕ} {rambuf c : List Pbuf} {base originals : List ℕ}
    (hchain : s.done ++ ps = advanced k (base ++ originals) qs)
    (hr : mirrorLoop env s m rambuf originals ps = some (o, c, is, s')) :
    s'.done ++ s'.todo = advanced k (base ++ is) qs ∧ s'.sent = s.sent ∧ (o ≠ .ok → is = []) := by
  induction ps generalizing s m rambuf originals with
  | nil =>
    rw [mirrorLoop] at hr
    split_ifs at hr
    cases hr
    exact ⟨hchain, rfl, fun h ↦ absurd rfl h⟩
  | cons p ps ih =>
    rw [mirrorLoop] at hr
    rcases Nat.eq_zero_or_pos m with hzero | hpos
    · rw [if_pos hzero] at hr
      cases hr
      exact ⟨hchain, rfl, fun h ↦ absurd rfl h⟩
    · rw [if_neg hpos.ne'] at hr
      obtain ⟨n, hn⟩ : ∃ n, n = if m < p.pbuf.len then m else p.pbuf.len := ⟨_, rfl⟩
      simp only [← hn] at hr
      rcases Nat.eq_zero_or_pos n with hzero | hpos
      · -- an empty pbuf
        rw [if_pos hzero] at hr
        have hframe := ih (by rw [← hchain, List.append_assoc]; rfl) hr
        exact hframe
      · rw [if_neg hpos.ne'] at hr
        rcases halloc : env.alloc s.allocs with _ | _
        · -- the references of this fragment are given back
          rw [halloc, if_pos rfl, hchain, unrefAt_advanced] at hr
          cases hr
          exact ⟨by rw [List.take_append_drop, List.append_nil], rfl, fun _ ↦ rfl⟩
        · rw [halloc, if_neg (by decide)] at hr
          have hmirror : s.done ++ { p with ref := p.ref + 1 } :: ps =
              advanced k (base ++ (originals ++ [s.done.length])) qs := by
            rw [← List.append_assoc, ← advanced_ref, ← hchain, modify_at]
          obtain ⟨d, -, hr⟩ := Option.bind_eq_some_iff.1 hr
          rcases Nat.eq_zero_or_pos (m - n) with hzero | hpos
          · rw [if_pos hzero] at hr
            cases hr
            exact ⟨hmirror, rfl, fun h ↦ absurd rfl h⟩
          · rw [if_neg hpos.ne'] at hr
            have hframe := ih (by rw [← hmirror, List.append_assoc]; rfl) hr
            exact hframe

/-- The pbufs that are mirrored by fragments that have been sent. -/
def mirrored (s : FragState) : List ℕ := s.sent.flatMap Fragment.originals

/-- **A round of the walk**: the pbuf that it is at is moved. -/
theorem fillCustom_frame (hchain : s.done ++ s.todo = advanced k (mirrored s) qs)
    (hr : fillCustom env hdr tmp cop s = some (o, s')) :
    if env.alloc s.allocs = true then
      s'.done ++ s'.todo =
        advanced (Function.update k s.done.length (k s.done.length + s.poff)) (mirrored s') qs
    else o = .mem ∧ s'.done ++ s'.todo = advanced k (mirrored s') qs := by
  rw [fillCustom] at hr
  rcases halloc : env.alloc s.allocs with _ | _
  · rw [halloc, if_neg (by decide)] at hr
    cases hr
    rw [if_neg (by decide)]
    exact ⟨rfl, hchain⟩
  · rw [halloc, if_pos rfl] at hr
    rw [if_pos rfl]
    rcases htodo : s.todo with _ | ⟨p, ps⟩
    · rw [htodo] at hr
      cases hr
    · simp only [htodo] at hr
      rcases Nat.lt_or_ge p.pbuf.len ipHlen with hpiece | hpiece
      · rw [if_pos hpiece] at hr
        cases hr
      · rw [if_neg (Nat.not_lt_of_le hpiece)] at hr
        obtain ⟨⟨o', c, is, s₁⟩, hloop, hs'⟩ := Option.map_eq_some_iff.1 hr
        rw [htodo] at hchain
        have hmoved := advanced_move k (mirrored s) qs s.done.length s.poff
        rw [← hchain, modify_at, ← List.append_nil (mirrored s)] at hmoved
        obtain ⟨hchain₁, hsent, hmem⟩ := mirrorLoop_frame (by exact hmoved) hloop
        rcases Decidable.em (o' = .ok) with rfl | ho
        · rw [if_pos rfl] at hs'
          cases hs'
          rw [hchain₁]
          simp only [mirrored, List.flatMap_append, List.flatMap_singleton]
        · rw [if_neg ho] at hs'
          cases hs'
          rw [hchain₁, hmem ho, List.append_nil, mirrored, mirrored, hsent]

/-- **A round that copies** leaves the pbufs alone. -/
theorem fill_copies (hv : v ≠ .customRef) (hr : fill v env hdr last tmp cop s = some (o, s')) :
    s'.done = s.done ∧ s'.todo = s.todo ∧ mirrored s' = mirrored s := by
  rcases v with _ | _ | _
  · simp only [fill, fillStatic] at hr
    rcases Nat.lt_or_ge env.bufLen (ipHlen + _) with hroom | hroom
    · rw [if_pos hroom] at hr
      cases hr
    · rw [if_neg (Nat.not_lt_of_le hroom)] at hr
      obtain ⟨rambuf, -, hr⟩ := Option.bind_eq_some_iff.1 hr
      rcases halloc : env.alloc s.allocs with _ | _
      · rw [halloc, if_neg (by decide)] at hr
        cases hr
        exact ⟨rfl, rfl, rfl⟩
      · rw [halloc, if_pos rfl] at hr
        obtain ⟨f, -, hs'⟩ := Option.map_eq_some_iff.1 hr
        cases hs'
        exact ⟨rfl, rfl, by simp [mirrored]⟩
  · rw [fill, fillSingle] at hr
    split_ifs at hr
    · cases hr
      exact ⟨rfl, rfl, by simp [mirrored]⟩
    · cases hr
      exact ⟨rfl, rfl, rfl⟩
  · exact absurd rfl hv

/-! ### The call -/

/-- The lengths and the offset of a round have no part in this. -/
theorem frame_counted (s : FragState) (left ofo : ℕ) :
    ({ s with left := left, ofo := ofo } : FragState).done = s.done ∧
      ({ s with left := left, ofo := ofo } : FragState).todo = s.todo ∧
      mirrored { s with left := left, ofo := ofo } = mirrored s := ⟨rfl, rfl, rfl⟩

/-- The loop, in the versions that copy. -/
theorem fragLoop_copies (hv : v ≠ .customRef) (hr : fragLoop v env hdr omf fuel s = some (o, s')) :
    s'.done = s.done ∧ s'.todo = s.todo ∧ mirrored s' = mirrored s := by
  induction fuel generalizing s with
  | zero => cases hr
  | succ fuel ih =>
    rw [fragLoop] at hr
    rcases Nat.eq_zero_or_pos s.left with hzero | hpos
    · rw [if_pos hzero] at hr
      cases hr
      exact ⟨rfl, rfl, rfl⟩
    · rw [if_neg hpos.ne'] at hr
      obtain ⟨⟨o', s₁⟩, hfill, hr⟩ := Option.bind_eq_some_iff.1 hr
      obtain ⟨hdone, htodo, hmirrored⟩ := fill_copies hv hfill
      rcases Decidable.em (o' = .ok) with rfl | ho
      · rw [if_pos rfl] at hr
        obtain ⟨hdone', htodo', hmirrored'⟩ := ih hr
        obtain ⟨hdone₁, htodo₁, hmirrored₁⟩ := frame_counted s₁ _ _
        exact ⟨hdone'.trans (hdone₁.trans hdone), htodo'.trans (htodo₁.trans htodo),
          hmirrored'.trans (hmirrored₁.trans hmirrored)⟩
      · rw [if_neg ho] at hr
        cases hr
        exact ⟨hdone, htodo, hmirrored⟩

/-- **The loop, in the version that mirrors**: the pbuf that it is at is moved, unless there is nothing to be sent or
no memory for it. -/
theorem fragLoop_mirrors (hchain : s.done ++ s.todo = advanced k (mirrored s) qs)
    (hr : fragLoop .customRef env hdr omf fuel s = some (o, s')) :
    ∃ k', s'.done ++ s'.todo = advanced k' (mirrored s') qs ∧ (∀ j, k j ≤ k' j) ∧
      (s.left = 0 ∨ env.alloc s.allocs = false → k' = k) ∧
      (¬ (s.left = 0 ∨ env.alloc s.allocs = false) → k s.done.length + s.poff ≤ k' s.done.length) := by
  induction fuel generalizing s k with
  | zero => cases hr
  | succ fuel ih =>
    rw [fragLoop] at hr
    rcases Nat.eq_zero_or_pos s.left with hzero | hpos
    · rw [if_pos hzero] at hr
      cases hr
      exact ⟨k, hchain, fun _ ↦ le_refl _, fun _ ↦ rfl, fun h ↦ absurd (.inl hzero) h⟩
    · rw [if_neg hpos.ne'] at hr
      obtain ⟨⟨o', s₁⟩, hfill, hr⟩ := Option.bind_eq_some_iff.1 hr
      have hframe := fillCustom_frame hchain hfill
      rcases halloc : env.alloc s.allocs with _ | _
      · rw [halloc, if_neg (by decide)] at hframe
        obtain ⟨rfl, hchain₁⟩ := hframe
        rw [if_neg (by simp)] at hr
        cases hr
        exact ⟨k, hchain₁, fun _ ↦ le_refl _, fun _ ↦ rfl, fun h ↦ absurd (.inr rfl) h⟩
      · rw [halloc, if_pos rfl] at hframe
        have hle : ∀ j, k j ≤ Function.update k s.done.length (k s.done.length + s.poff) j := fun j ↦ by
          rcases eq_or_ne j s.done.length with rfl | hj
          · rw [Function.update_self]
            exact Nat.le_add_right _ _
          · rw [Function.update_of_ne hj]
        have hat : Function.update k s.done.length (k s.done.length + s.poff) s.done.length =
            k s.done.length + s.poff := Function.update_self _ _ _
        have hsome : ¬ (s.left = 0 ∨ true = false) := by simp [hpos.ne']
        rcases Decidable.em (o' = .ok) with rfl | ho
        · rw [if_pos rfl] at hr
          obtain ⟨hdone₁, htodo₁, hmirrored₁⟩ := frame_counted s₁ _ _
          obtain ⟨k', hchain', hle', -⟩ := ih (by rw [hdone₁, htodo₁, hmirrored₁]; exact hframe) hr
          exact ⟨k', hchain', fun j ↦ (hle j).trans (hle' j), fun h ↦ absurd h hsome,
            fun _ ↦ hat.symm.le.trans (hle' _)⟩
        · rw [if_neg ho] at hr
          cases hr
          exact ⟨_, hframe, hle, fun h ↦ absurd h hsome, fun _ ↦ hat.symm.le⟩

/-- The packet, when all that has been sent is freed. -/
def released (s : FragState) : List FragPbuf := unrefAt (mirrored s) (s.done ++ s.todo)

/-- **`ip_frag`, whatever it returns**: the references and the totals are those of the packet, and its pbufs have
been moved forward, if at all. -/
theorem ipFrag_released (hr : ipFrag v env ps fuel = some (o, s)) : ∃ k, released s = advanced k [] ps ∧
    (v ≠ .customRef ∨ (start v env ps).left = 0 ∨ env.alloc 0 = false → ∀ j, k j = 0) ∧
    (¬ (v ≠ .customRef ∨ (start v env ps).left = 0 ∨ env.alloc 0 = false) → ipHlen ≤ k 0) := by
  have hchain : (start v env ps).done ++ (start v env ps).todo =
      advanced (fun _ ↦ 0) (mirrored (start v env ps)) ps := (advanced_zero ps).symm
  have hreleased : ∀ {k s}, s.done ++ s.todo = advanced k (mirrored s) ps → released s = advanced k [] ps :=
    fun h ↦ by
      rw [released, h]
      exact unrefAt_advanced _ [] _ ps
  rw [ipFrag] at hr
  split_ifs at hr with hnil halloc
  · cases hr
    have hv : v ≠ .customRef := by
      rw [halloc.1]
      decide
    exact ⟨_, hreleased hchain, fun _ _ ↦ rfl, fun h ↦ absurd (.inl hv) h⟩
  · rcases Decidable.em (v = .customRef) with rfl | hv
    · obtain ⟨k, hk, -, hstill, hmoved⟩ := fragLoop_mirrors hchain hr
      refine ⟨k, hreleased hk, fun h j ↦ ?_, fun h ↦ ?_⟩
      · rw [hstill (h.elim (absurd rfl) id)]
      · exact (Nat.zero_add _).symm.le.trans (hmoved fun hnone ↦ h (.inr hnone))
    · obtain ⟨hdone, htodo, hmirrored⟩ := fragLoop_copies hv hr
      exact ⟨fun _ ↦ 0, hreleased (by rw [hdone, htodo, hmirrored]; exact hchain), fun _ _ ↦ rfl,
        fun h ↦ absurd (.inl hv) h⟩

/-- **The packet is as it was**, if and only if it has not been mirrored: the pbufs are copied, there is nothing to be
sent, or there is no memory for the first fragment. -/
theorem released_eq_iff (ht : Totals (ps.map FragPbuf.pbuf))
    (hlen : ipHlen ≤ (pbufBytes (ps.map FragPbuf.pbuf)).length)
    (hlt : (pbufBytes (ps.map FragPbuf.pbuf)).length < 2 ^ 16) (hr : ipFrag v env ps fuel = some (o, s)) :
    released s = ps ↔ v ≠ .customRef ∨ packetPayload ps = [] ∨ env.alloc 0 = false := by
  have hleft : (start v env ps).left = 0 ↔ packetPayload ps = [] := by
    rw [start_left ht hlen hlt, List.length_eq_zero_iff]
  obtain ⟨k, hk, hstill, hmoved⟩ := ipFrag_released hr
  rw [hk, advanced_eq_iff, ← hleft]
  refine ⟨fun h ↦ by_contra fun hnone ↦ ?_, fun hnone j _ ↦ hstill hnone j⟩
  have hps : 0 < ps.length := List.length_pos_of_ne_nil fun hps ↦ by
    rw [hps] at hlen
    exact absurd hlen (by decide)
  have hzero := hmoved hnone
  rw [h 0 hps] at hzero
  exact absurd hzero (by decide)

theorem released_eq_iff_single : ∃ s, ipFrag .singlePbuf exampleCutEnv exampleCut 25 = some (.ok, s) ∧
    s.sent.length = 2 ∧ released s = exampleCut := by
  have hrun : (ipFrag .singlePbuf exampleCutEnv exampleCut 25).map (fun r ↦ (r.1, r.2.sent.length)) =
      some (.ok, 2) := by
    decide
  obtain ⟨⟨o, s⟩, hs, hobs⟩ := Option.map_eq_some_iff.1 hrun
  obtain ⟨rfl, hsent⟩ := Prod.mk.inj hobs
  exact ⟨s, hs, hsent, (released_eq_iff (by decide) (by decide) (by decide) hs).2 (.inl (by decide))⟩

/-- **A packet that has been mirrored is not what it was**: its first pbuf has lost the header, and more. -/
theorem not_released_eq : ¬ ∀ (v : FragVariant) (env : FragEnv) (ps : List FragPbuf) (fuel : ℕ) (o : ErrT)
    (s : FragState), Totals (ps.map FragPbuf.pbuf) → ipHlen ≤ (pbufBytes (ps.map FragPbuf.pbuf)).length →
    (pbufBytes (ps.map FragPbuf.pbuf)).length < 2 ^ 16 → ipFrag v env ps fuel = some (o, s) → released s = ps := by
  intro h
  have hrun : (ipFrag .customRef exampleCutEnv exampleCut 25).map
      (fun r ↦ (r.1, (released r.2).map fun p ↦ (p.moved, p.pbuf.len, p.pbuf.totLen, p.ref))) =
      some (.ok, [(20, 4, 44, 1), (12, 8, 20, 1)]) := by
    decide
  obtain ⟨⟨o, s⟩, hs, hobs⟩ := Option.map_eq_some_iff.1 hrun
  obtain ⟨rfl, hpbufs⟩ := Prod.mk.inj hobs
  have hsame := h .customRef exampleCutEnv exampleCut 25 .ok s (by decide) (by decide) (by decide) hs
  rw [hsame] at hpbufs
  exact absurd hpbufs (by decide)

end Frag

end Lwip.Ipv4
