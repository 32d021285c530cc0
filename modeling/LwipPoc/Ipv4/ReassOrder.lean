import LwipPoc.Ipv4.ReassCount

/-!
# The order of the fragments in the queue

`ip_reass_chain_frag_into_datagram_and_validate` keeps the fragments of a datagram sorted by their
offsets, and asserts what it believes of them. It is not so for every sequence of fragments that
`ip_input` lets through:

* a fragment that is put **in front of all others** is not compared with the one behind it;
* the end of a fragment is an offset plus a length in a `u16_t`;
* `datagram_len` is taken from **whichever fragment came last** that says that no more follow, also if
  it is thrown away, and is not compared with where the other fragments end. The assertion at the end
  of the validation then stops the program.

`Fair` is what remains for the fragments to meet, each in the state it finds. In a run where all do, the
queues are sorted and disjoint, and no assertion of the function fails (`frags_ordered`);
`frags_disordered` has two short runs where this is not so.
-/

namespace Lwip.Ipv4.Reass

open Lwip.Core

variable {s s' : Reass} {p r : IpPacket} {d : ReassData} {new : ReassHelper}
  {qs done pre post : List ReassHelper} {valid v : Bool} {i n : ℕ} {o : Option IpPacket}

/-- `ip_reass_chain_frag_into_datagram_and_validate`: whether the datagram is complete; `none` if an
assertion fails. -/
def chainFrag (d : ReassData) (p : IpPacket) : Option Bool :=
  (place (helper p) [] true d.frags).bind fun
    | .dropped => some false
    | .kept pre post valid => validate d (helper p) pre post valid

/-! ### Order -/

/-- `a` lies in front of `b`. -/
def Before (a b : ReassHelper) : Prop := a.start < b.start ∧ a.stop ≤ b.start

/-- **Sorted and disjoint.** -/
structure Ordered (qs : List ReassHelper) : Prop where
  sorted : qs.Pairwise Before
  le : ∀ q ∈ qs, q.start ≤ q.stop

instance (a b : ReassHelper) : Decidable (Before a b) := inferInstanceAs (Decidable (_ ∧ _))

instance (qs : List ReassHelper) : Decidable (Ordered qs) :=
  decidable_of_iff (qs.Pairwise Before ∧ ∀ q ∈ qs, q.start ≤ q.stop)
    ⟨fun h ↦ ⟨h.1, h.2⟩, fun h ↦ ⟨h.sorted, h.le⟩⟩

/-- The last one ends where the furthest one does. -/
theorem Ordered.last_stop (hqs : Ordered qs) (hle : ∀ q ∈ qs, q.stop ≤ n) (hex : ∃ q ∈ qs, q.stop = n) :
    ∀ q ∈ qs.getLast?, q.stop = n := by
  intro l hl
  obtain ⟨ys, rfl⟩ := List.getLast?_eq_some_iff.1 hl
  obtain ⟨q, hq, rfl⟩ := hex
  rcases List.mem_append.1 hq with hq' | hq'
  · have hbefore := (List.pairwise_append.1 hqs.sorted).2.2 q hq' l (by simp)
    have := hqs.le l (by simp)
    have := hle l (by simp)
    have := hbefore.2
    omega
  · rw [List.mem_singleton.1 hq']

/-- **Where the loop puts a fragment**: behind those that lie in front of it, and in front of one that
starts behind it. It is compared with the end of the fragment only if there is one in front of both. -/
theorem place_between (hplace : place new done valid qs = some (.kept pre post v))
    (hdone : ∀ q ∈ done, Before q new) :
    pre ++ post = done ++ qs ∧ (∀ q ∈ pre, Before q new) ∧
      ∀ q ∈ post.head?, new.start < q.start ∧ (pre ≠ [] → new.stop ≤ q.start) := by
  induction qs generalizing done valid with
  | nil =>
    rw [place] at hplace
    split at hplace
    · split_ifs at hplace
      cases hplace
      exact ⟨rfl, hdone, by simp⟩
    · next hprev =>
      cases hplace
      rw [List.getLast?_eq_none_iff.1 hprev]
      exact ⟨rfl, by simp, by simp⟩
  | cons q qs ih =>
    rw [place] at hplace
    split_ifs at hplace with hlt heq hov
    · split at hplace
      · split_ifs at hplace with hov
        · cases hplace
        · cases hplace
          refine ⟨rfl, hdone, fun x hx ↦ ?_⟩
          obtain rfl := Option.some.inj hx
          exact ⟨hlt, fun _ ↦ by omega⟩
      · next hprev =>
        cases hplace
        rw [List.getLast?_eq_none_iff.1 hprev]
        refine ⟨rfl, by simp, fun x hx ↦ ?_⟩
        obtain rfl := Option.some.inj hx
        exact ⟨hlt, fun h ↦ absurd rfl h⟩
    · cases hplace
    · cases hplace
    · have hsplit : done ++ [q] ++ qs = done ++ q :: qs := by simp
      rw [← hsplit]
      refine ih hplace fun x hx ↦ ?_
      rcases List.mem_append.1 hx with hx | hx
      · exact hdone x hx
      · rw [List.mem_singleton.1 hx]
        exact ⟨by omega, by omega⟩

/-- The assertion on the end of the loop holds. -/
theorem place_ne_none (hdone : ∀ q ∈ done, Before q new) : place new done valid qs ≠ none := by
  induction qs generalizing done valid with
  | nil =>
    rw [place]
    split
    · next prev hprev =>
      rw [if_pos (hdone prev (List.mem_of_getLast? hprev)).2]
      simp
    · simp
  | cons q qs ih =>
    rw [place]
    split_ifs with hlt heq hov
    · split
      · split_ifs <;> simp
      · simp
    · simp
    · simp
    · refine ih fun x hx ↦ ?_
      rcases List.mem_append.1 hx with hx | hx
      · exact hdone x hx
      · rw [List.mem_singleton.1 hx]
        exact ⟨by omega, by omega⟩

/-- **A fragment between others** that it does not overlap with. -/
theorem Ordered.insert (hqs : Ordered (pre ++ post)) (hnew : new.start ≤ new.stop)
    (hpre : ∀ q ∈ pre, Before q new) (hpost : ∀ q ∈ post.head?, Before new q) :
    Ordered (pre ++ new :: post) := by
  obtain ⟨hp, hq, hpq⟩ := List.pairwise_append.1 hqs.sorted
  have hall : ∀ q ∈ post, Before new q := by
    cases post with
    | nil => simp
    | cons q post =>
      have hhead := hpost q rfl
      intro x hx
      rcases List.mem_cons.1 hx with rfl | hx
      · exact hhead
      · have := (List.pairwise_cons.1 hq).1 x hx
        exact ⟨hhead.1.trans this.1, hhead.2.trans this.1.le⟩
  refine ⟨List.pairwise_append.2 ⟨hp, List.pairwise_cons.2 ⟨hall, hq⟩, fun x hx y hy ↦ ?_⟩,
    fun q hmem ↦ ?_⟩
  · rcases List.mem_cons.1 hy with rfl | hy
    · exact hpre x hx
    · exact hpq x hx y hy
  · rcases List.mem_append.1 hmem with hmem | hmem
    · exact hqs.le q (List.mem_append_left _ hmem)
    · rcases List.mem_cons.1 hmem with rfl | hmem
      · exact hnew
      · exact hqs.le q (List.mem_append_right _ hmem)

/-- A fragment that lies between the others overlaps with none. -/
theorem Ordered.not_overlaps (hqs : Ordered (pre ++ new :: post)) :
    ∀ q ∈ pre ++ post, ¬ Overlaps q new := by
  obtain ⟨-, hnew, hpre⟩ := List.pairwise_append.1 hqs.sorted
  intro q hq hov
  rcases List.mem_append.1 hq with hq | hq
  · obtain ⟨hlt, hle⟩ := hpre q hq new List.mem_cons_self
    rcases hov with hov | hov <;> omega
  · obtain ⟨hlt, hle⟩ := (List.pairwise_cons.1 hnew).1 q hq
    rcases hov with hov | hov <;> omega

/-! ### The condition -/

/-- What is known of the length of the datagram. -/
def knownLen (d : ReassData) : Option ℕ := if d.lastFrag = true then some d.datagramLen else none

/-- **The condition**, for the datagram that a fragment goes to: it does not end behind 65535; it does
not overlap with the first fragment from the front; and it agrees on where the datagram ends. The last
fragment of a datagram says the same as one before it, if there was one, and else does not overlap, nor
have others behind it; another fragment does not go further, unless it overlaps and is thrown away. -/
structure FairIn (d : ReassData) (p : IpPacket) : Prop where
  range : (helper p).start ≤ (helper p).stop
  front : ∀ q ∈ d.frags.head?, (helper p).start < q.start → (helper p).stop ≤ q.start
  last : p.hdr.mf = false → match knownLen d with
    | some n => n = (helper p).stop
    | none => ∀ q ∈ d.frags, ¬ Overlaps q (helper p) ∧ q.stop ≤ (helper p).stop
  inner : p.hdr.mf = true → ∀ n ∈ knownLen d,
    (helper p).stop ≤ n ∨ ∃ q ∈ d.frags, Overlaps q (helper p)

/-- The condition in a state. Fragments with options in their headers are thrown away at once. -/
def Fair (s : Reass) (p : IpPacket) : Prop :=
  p.hdr.hl * 4 = ipHlen → FairIn ((s.datagramOf p).getD (freshDatagram p)) p

instance (d : ReassData) (p : IpPacket) : Decidable (FairIn d p) :=
  have : Decidable (match knownLen d with
      | some n => n = (helper p).stop
      | none => ∀ q ∈ d.frags, ¬ Overlaps q (helper p) ∧ q.stop ≤ (helper p).stop) := by
    cases knownLen d <;> dsimp only <;> infer_instance
  decidable_of_iff
    ((helper p).start ≤ (helper p).stop ∧
      (∀ q ∈ d.frags.head?, (helper p).start < q.start → (helper p).stop ≤ q.start) ∧
      (p.hdr.mf = false → match knownLen d with
        | some n => n = (helper p).stop
        | none => ∀ q ∈ d.frags, ¬ Overlaps q (helper p) ∧ q.stop ≤ (helper p).stop) ∧
      (p.hdr.mf = true → ∀ n ∈ knownLen d,
        (helper p).stop ≤ n ∨ ∃ q ∈ d.frags, Overlaps q (helper p)))
    ⟨fun h ↦ ⟨h.1, h.2.1, h.2.2.1, h.2.2.2⟩, fun h ↦ ⟨h.range, h.front, h.last, h.inner⟩⟩

instance (s : Reass) (p : IpPacket) : Decidable (s.Fair p) := inferInstanceAs (Decidable (_ → _))

/-! ### One fragment -/

/-- **The invariant** of a datagram: its fragments are sorted and disjoint; and if its length is known,
one of them ends there, and none behind it. -/
structure DatagramOrdered (d : ReassData) : Prop where
  ordered : Ordered d.frags
  known : ∀ n ∈ knownLen d, (∀ q ∈ d.frags, q.stop ≤ n) ∧ ∃ q ∈ d.frags, q.stop = n

theorem datagramOrdered_fresh (p : IpPacket) : DatagramOrdered (freshDatagram p) :=
  ⟨⟨List.Pairwise.nil, by simp [freshDatagram]⟩, by simp [knownLen, freshDatagram]⟩

theorem knownLen_noteLast (d : ReassData) (p : IpPacket) :
    knownLen (noteLast d p) = if p.hdr.mf = true then knownLen d else some (helper p).stop := by
  rw [noteLast]
  split_ifs <;> rfl

/-- The order of the fragments after one of them is kept. -/
theorem DatagramOrdered.insert (hd : DatagramOrdered d) (hp : FairIn d p)
    (hplace : place (helper p) [] true d.frags = some (.kept pre post v)) :
    pre ++ post = d.frags ∧ Ordered (pre ++ helper p :: post) := by
  obtain ⟨hsplit, hpre, hpost⟩ := place_between hplace (by simp)
  rw [List.nil_append] at hsplit
  have hord := hd.ordered
  rw [← hsplit] at hord
  refine ⟨hsplit, hord.insert hp.range hpre fun q hq ↦ ?_⟩
  obtain ⟨hlt, hle⟩ := hpost q hq
  rcases eq_or_ne pre [] with rfl | hne
  · -- there is none in front of it
    rw [List.nil_append] at hsplit
    exact ⟨hlt, hp.front q (hsplit ▸ hq) hlt⟩
  · exact ⟨hlt, hle hne⟩

/-- **The invariant is kept** with a fragment that is kept. -/
theorem DatagramOrdered.keep (hd : DatagramOrdered d) (hp : FairIn d p)
    (hplace : place (helper p) [] true d.frags = some (.kept pre post v)) :
    DatagramOrdered { noteLast d p with frags := pre ++ helper p :: post } := by
  obtain ⟨hsplit, hord⟩ := hd.insert hp hplace
  have hmem : ∀ q, q ∈ pre ++ helper p :: post ↔ q = helper p ∨ q ∈ d.frags := fun q ↦ by
    rw [List.perm_middle.mem_iff, List.mem_cons, hsplit]
  have hapart : ∀ q ∈ d.frags, ¬ Overlaps q (helper p) := hsplit ▸ hord.not_overlaps
  refine ⟨hord, fun n hn ↦ ?_⟩
  replace hn : n ∈ knownLen (noteLast d p) := hn
  show (∀ q ∈ pre ++ helper p :: post, q.stop ≤ n) ∧ ∃ q ∈ pre ++ helper p :: post, q.stop = n
  rw [knownLen_noteLast] at hn
  by_cases hmf : p.hdr.mf = true
  · rw [if_pos hmf] at hn
    obtain ⟨hle, q, hq, hstop⟩ := hd.known n hn
    refine ⟨fun x hx ↦ ?_, q, (hmem q).2 (.inr hq), hstop⟩
    rcases (hmem x).1 hx with rfl | hx
    · rcases hp.inner hmf n hn with hle | ⟨y, hy, hov⟩
      · exact hle
      · exact absurd hov (hapart y hy)
    · exact hle x hx
  · rw [if_neg hmf] at hn
    obtain rfl := Option.some.inj hn
    have hlast := hp.last (Bool.eq_false_iff.2 hmf)
    refine ⟨fun x hx ↦ ?_, helper p, (hmem _).2 (.inl rfl), rfl⟩
    rcases (hmem x).1 hx with rfl | hx
    · exact le_refl _
    · cases hlen : knownLen d with
      | none =>
        rw [hlen] at hlast
        exact (hlast x hx).2
      | some n =>
        rw [hlen] at hlast
        exact hlast ▸ (hd.known n hlen).1 x hx

/-- **The invariant is kept** with a fragment that is thrown away. -/
theorem DatagramOrdered.drop (hd : DatagramOrdered d) (hp : FairIn d p)
    (hplace : place (helper p) [] true d.frags = some .dropped) : DatagramOrdered (noteLast d p) := by
  obtain ⟨x, hx, hov⟩ := place_dropped hplace (by simp) hd.ordered.le hp.range
  refine ⟨by rw [noteLast_frags]; exact hd.ordered, fun n hn ↦ ?_⟩
  rw [noteLast_frags]
  rw [knownLen_noteLast] at hn
  by_cases hmf : p.hdr.mf = true
  · rw [if_pos hmf] at hn
    exact hd.known n hn
  · rw [if_neg hmf] at hn
    obtain rfl := Option.some.inj hn
    have hlast := hp.last (Bool.eq_false_iff.2 hmf)
    cases hlen : knownLen d with
    | none =>
      rw [hlen] at hlast
      exact absurd hov (hlast x hx).1
    | some n =>
      rw [hlen] at hlast
      exact hlast ▸ hd.known n hlen

/-- A fragment that says that no more follow does not start at zero. -/
theorem start_pos (hrec : Received p) (hmf : p.hdr.mf = false) : 0 < (helper p).start := by
  have hoff := hrec.2.2.2.2.2
  have hmf' : ¬ p.hdr.offset / 2 ^ 13 % 2 = 1 := by
    rw [IpHdr.mf] at hmf
    exact of_decide_eq_false hmf
  show 0 < p.hdr.offset % 2 ^ 13 * 8
  omega

/-- **No assertion fails.** -/
theorem DatagramOrdered.chainFrag (hd : DatagramOrdered d) (hp : FairIn d p) (hrec : Received p) :
    Reass.chainFrag (noteLast d p) p ≠ none := by
  rw [Reass.chainFrag, noteLast_frags]
  cases hplace : place (helper p) [] true d.frags with
  | none => exact absurd hplace (place_ne_none (by simp))
  | some ch =>
    rw [Option.bind_some]
    cases ch with
    | dropped => simp
    | kept pre post v =>
      have hkeep := hd.keep hp hplace
      obtain ⟨hsplit, -⟩ := hd.insert hp hplace
      dsimp only
      rw [validate]
      by_cases hlast : (noteLast d p).lastFrag = true
      swap
      · rw [if_neg hlast]
        simp
      rw [if_pos hlast]
      by_cases hvalid : v = true ∧ ((pre ++ helper p :: post).head?.all fun q ↦ q.start = 0) = true ∧
          noHoles (helper p) post = true
      swap
      · rw [if_neg hvalid]
        simp
      rw [if_pos hvalid, if_pos]
      · simp
      have hknown : knownLen (noteLast d p) = some (noteLast d p).datagramLen := if_pos hlast
      obtain ⟨hle, hex⟩ := hkeep.known _ hknown
      refine ⟨fun hnil ↦ ?_, ?_⟩
      · -- the fragment would be the only one, start at zero, and be the last
        obtain ⟨rfl, rfl⟩ := List.append_eq_nil_iff.1 hnil
        have hzero : (helper p).start = 0 := by simpa using hvalid.2.1
        by_cases hmf : p.hdr.mf = true
        · rw [knownLen_noteLast, if_pos hmf] at hknown
          obtain ⟨q, hq, -⟩ := (hd.known _ hknown).2
          rw [← hsplit] at hq
          cases hq
        · have := start_pos hrec (Bool.eq_false_iff.2 hmf)
          omega
      · have hend := hkeep.ordered.last_stop hle hex
        rw [List.getLast?_append_of_ne_nil _ (List.cons_ne_nil _ _)] at hend
        cases hlast' : (helper p :: post).getLast? with
        | none => rfl
        | some l => simpa using hend l hlast'

/-! ### Every run -/

/-- All datagrams. -/
def AllOrdered (s : Reass) : Prop := ∀ d ∈ s.datagrams, DatagramOrdered d

theorem AllOrdered.sublist (hs : AllOrdered s) (hsub : s'.datagrams.Sublist s.datagrams) :
    AllOrdered s' := fun d hd ↦ hs d (hsub.subset hd)

/-- One fragment, once its datagram is known. -/
theorem AllOrdered.reassAt (hs : AllOrdered s) (hd : DatagramOrdered d) (hp : FairIn d p)
    (hcall : s.reassAt p i d = some (o, s')) : AllOrdered s' := by
  have hset : ∀ {x}, DatagramOrdered x → s'.datagrams = s.datagrams.set i x → AllOrdered s' :=
    fun {x} hx hds y hy ↦ by
      rw [hds] at hy
      rcases List.mem_or_eq_of_mem_set hy with hy | rfl
      · exact hs y hy
      · exact hx
  obtain ⟨ch, hplace, hcall⟩ := Option.bind_eq_some_iff.1
    (show (place (helper p) [] true (noteLast d p).frags).bind _ = _ from hcall)
  rw [noteLast_frags] at hplace
  cases ch with
  | dropped =>
    cases hcall
    exact hset (hd.drop hp hplace) rfl
  | kept pre post v =>
    obtain ⟨ok, -, hcall⟩ := Option.bind_eq_some_iff.1
      (show (validate (noteLast d p) (helper p) pre post v).bind _ = _ from hcall)
    cases ok with
    | false =>
      cases hcall
      exact hset (hd.keep hp hplace) rfl
    | true =>
      obtain ⟨r, -, heq⟩ := Option.map_eq_some_iff.1
        (show (assemble (noteLast d p) (pre ++ helper p :: post)).map _ = _ from hcall)
      cases heq
      exact hs.sublist (List.eraseIdx_sublist _ _)

/-- The header of the first fragment does not matter. -/
theorem adoptHdr_eq (d : ReassData) (h : IpHdr) : ∃ h', adoptHdr d h = { d with iphdr := h' } := by
  rw [adoptHdr]
  split_ifs
  · exact ⟨h, rfl⟩
  · exact ⟨d.iphdr, rfl⟩

/-- **One fragment** that meets the condition. -/
theorem AllOrdered.ipReass (hs : AllOrdered s) (hp : s.Fair p) (hcall : s.ipReass p = some (o, s')) :
    AllOrdered s' := by
  rcases ipReass_cases hcall with ⟨-, rfl⟩ | ⟨-, hroom⟩ | ⟨s₁, hl, hroom, hcall⟩
  · exact hs
  · exact hs.sublist (makeRoom_spec hroom).1
  have hs₁ := hs.sublist (makeRoom_spec hroom).1
  have hfair := hp hl
  rcases hcall with ⟨i, d, hd, hof, hcall⟩ | ⟨hof, ⟨-, henq⟩ | ⟨s₂, henq, hcall⟩⟩
  · rw [hof, Option.getD_some] at hfair
    have hord := hs₁ d (List.mem_of_getElem? hd)
    obtain ⟨h', heq⟩ := adoptHdr_eq d p.hdr
    rw [heq] at hcall
    have hord' : DatagramOrdered { d with iphdr := h' } := ⟨hord.ordered, hord.known⟩
    have hfair' : FairIn { d with iphdr := h' } p :=
      ⟨hfair.range, hfair.front, hfair.last, hfair.inner⟩
    exact hs₁.reassAt hord' hfair' hcall
  · exact hs₁.sublist (enqueueNewDatagram_false henq)
  · rw [hof, Option.getD_none] at hfair
    obtain ⟨ds, hds, hsub⟩ := enqueueNewDatagram_spec henq
    have hs₂ : AllOrdered s₂ := fun x hx ↦ by
      rw [hds] at hx
      rcases List.mem_cons.1 hx with rfl | hx
      · exact datagramOrdered_fresh p
      · exact hs₁ x (hsub.subset hx)
    exact hs₂.reassAt (datagramOrdered_fresh p) hfair hcall

/-- The condition on an event. -/
def FairEvent : Event → Reass → Prop
  | .input p, s => s.Fair p
  | .tmr, _ => True

instance : (e : Event) → (s : Reass) → Decidable (FairEvent e s)
  | .input p, s => inferInstanceAs (Decidable (s.Fair p))
  | .tmr, _ => inferInstanceAs (Decidable True)

theorem run_allOrdered {es : List Event}
    (hrun : runLabels (guardStep FairEvent step) es init = some s) : AllOrdered s := by
  refine runLabels_invariant (I := AllOrdered) (by simp [AllOrdered, init])
    (fun e t t' ht hstep ↦ ?_) hrun
  obtain ⟨hfair, hstep⟩ := guardStep_eq_some.1 hstep
  cases e with
  | input p =>
    rw [Reass.step] at hstep
    split_ifs at hstep
    obtain ⟨⟨o, u⟩, hcall, rfl⟩ := Option.map_eq_some_iff.1 hstep
    exact ht.ipReass hfair hcall
  | tmr =>
    refine tmrLoop_keepsState (I := AllOrdered)
      (fun h hfree ↦ h.sublist (freeCompleteDatagram_datagrams hfree ▸ List.eraseIdx_sublist _ _))
      (fun {ds r rs count t} h x hx ↦ ?_) (show AllOrdered ⟨[] ++ t.datagrams, t.pbufcount⟩ from ht)
      hstep
    simp only [List.mem_append, List.mem_cons] at hx
    rcases hx with hx | rfl | hx
    · exact h x (by simp [hx])
    · have hr := h r (by simp)
      exact ⟨hr.ordered, hr.known⟩
    · exact h x (by simp [hx])

/-- **The queues are sorted and disjoint** in every run whose fragments meet the condition, and for one
more such fragment no assertion of `ip_reass_chain_frag_into_datagram_and_validate` fails. -/
theorem frags_ordered {es : List Event}
    (hrun : runLabels (guardStep FairEvent step) es init = some s) :
    (∀ d ∈ s.datagrams, Ordered d.frags) ∧
      ∀ p, Received p → p.hdr.hl * 4 = ipHlen → s.Fair p →
        Reass.chainFrag (noteLast ((s.datagramOf p).getD (freshDatagram p)) p) p ≠ none := by
  have hs := run_allOrdered hrun
  refine ⟨fun d hd ↦ (hs d hd).ordered, fun p hrec hl hp ↦ ?_⟩
  have hd : DatagramOrdered ((s.datagramOf p).getD (freshDatagram p)) := by
    cases hof : s.datagramOf p with
    | none => exact datagramOrdered_fresh p
    | some d => exact hs d (List.mem_of_find?_eq_some hof)
  exact hd.chainFrag (hp hl) hrec

/-- Two fragments in the wrong order, and a third one between them. -/
theorem frags_ordered_three : ∃ s, runLabels (guardStep FairEvent step)
      [.input (fragment 7 16 false 8), .tmr, .input (fragment 7 0 true 8)] init = some s ∧
    (∀ d ∈ s.datagrams, Ordered d.frags) ∧
      chainFrag (noteLast ((s.datagramOf (fragment 7 8 true 8)).getD
        (freshDatagram (fragment 7 8 true 8))) (fragment 7 8 true 8)) (fragment 7 8 true 8) ≠ none := by
  refine exists_run_of_observe (fun s ↦ decide (s.Fair (fragment 7 8 true 8))) true
    (by decide) fun s hs hobs ↦ ?_
  obtain ⟨hord, hchain⟩ := frags_ordered hs
  exact ⟨hord, hchain _ (by decide) (by decide) (of_decide_eq_true hobs)⟩

/-- **Out of order**: a fragment from the front that overlaps with the first one is kept, and an end of
the datagram in the midst of its fragments makes the assertion on its length fail. -/
theorem frags_disordered :
    (∃ s, runLabels step [.input (fragment 7 8 true 8), .input (fragment 7 0 true 16)] init = some s ∧
      ¬ ∀ d ∈ s.datagrams, Ordered d.frags) ∧
    ∃ s, runLabels step [.input (fragment 7 16 true 8), .input (fragment 7 8 false 8)] init = some s ∧
      Received (fragment 7 0 true 8) ∧ s.ipReass (fragment 7 0 true 8) = none ∧
      chainFrag (noteLast ((s.datagramOf (fragment 7 0 true 8)).getD
        (freshDatagram (fragment 7 0 true 8))) (fragment 7 0 true 8)) (fragment 7 0 true 8) = none := by
  refine ⟨exists_run_of_observe (fun s ↦ decide (∀ d ∈ s.datagrams, Ordered d.frags)) false
    (by decide) fun s _ hobs ↦ of_decide_eq_false hobs, ?_⟩
  refine exists_run_of_observe (fun s ↦ ((s.ipReass (fragment 7 0 true 8)).isNone,
    (chainFrag (noteLast ((s.datagramOf (fragment 7 0 true 8)).getD
      (freshDatagram (fragment 7 0 true 8))) (fragment 7 0 true 8)) (fragment 7 0 true 8)).isNone))
    (true, true) (by decide) fun s _ hobs ↦ ?_
  obtain ⟨hreass, hchain⟩ := Prod.mk.inj hobs
  exact ⟨by decide, Option.isNone_iff_eq_none.1 hreass, Option.isNone_iff_eq_none.1 hchain⟩

end Lwip.Ipv4.Reass
