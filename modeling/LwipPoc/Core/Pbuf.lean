import LwipPoc.Arch

/-!
# Packet buffers

A packet is a chain of `struct pbuf`s. What the protocols look at is the bytes of each of them, from
its `payload` pointer on, and its `tot_len`, which should be the number of bytes from this pbuf to the
end of the chain. It is a field of its own, kept in a `u16_t`, and the functions below update it the
way `pbuf.c` does; `Totals` says that it is right.

`LWIP_ERROR` stops the program in this configuration, as `LWIP_ASSERT` does: a result of `none`.
-/

namespace Lwip.Core

/-- A `struct pbuf`; its `len` is the number of its bytes. -/
structure Pbuf where
  payload : List (BitVec 8)
  totLen : ℕ
  deriving DecidableEq, Repr

/-- `p->len`. -/
def Pbuf.len (p : Pbuf) : ℕ := p.payload.length

/-- The bytes of a chain. -/
def pbufBytes (ps : List Pbuf) : List (BitVec 8) := ps.flatMap Pbuf.payload

/-- `p->tot_len` of a chain. -/
def pbufTotLen (ps : List Pbuf) : ℕ := (ps.head?.map Pbuf.totLen).getD 0

/-- `pbuf_clen`: counted in a `u8_t`. -/
def pbufClen (ps : List Pbuf) : ℕ := ps.length % 2 ^ 8

/-- `pbuf_header` with a negative increment: hide the first `n` bytes. -/
def pbufHide (n : ℕ) : List Pbuf → Option (List Pbuf)
  | [] => none
  | p :: ps =>
    if n ≤ p.len then
      some (⟨p.payload.drop n, (p.totLen + 2 ^ 16 - n) % 2 ^ 16⟩ :: ps)
    else none

/-- `pbuf_cat`: the second chain behind the first. -/
def pbufCat (t : List Pbuf) : List Pbuf → Option (List Pbuf)
  | [] => none
  | [p] =>
    if p.totLen = p.len then
      some ({ p with totLen := (p.totLen + pbufTotLen t) % 2 ^ 16 } :: t)
    else none
  | p :: q :: ps =>
    (pbufCat t (q :: ps)).map ({ p with totLen := (p.totLen + pbufTotLen t) % 2 ^ 16 } :: ·)

/-- The walk of `pbuf_realloc`: keep `rem` bytes of the chain, and correct the totals on the way. -/
def pbufTrim (grow : ℕ) : ℕ → List Pbuf → Option (List Pbuf)
  | _, [] => none
  | rem, q :: qs =>
    if q.len < rem then
      (pbufTrim grow (rem - q.len) qs).map ({ q with totLen := (q.totLen + grow) % 2 ^ 16 } :: ·)
    else some [⟨q.payload.take rem, rem⟩]

/-- `pbuf_realloc`: the pbufs that are kept; the ones behind them are freed. -/
def pbufRealloc (n : ℕ) (ps : List Pbuf) : Option (List Pbuf) :=
  if pbufTotLen ps ≤ n then some ps
  else pbufTrim ((n + 2 ^ 16 - pbufTotLen ps) % 2 ^ 16) n ps

/-- A packet ends at the first pbuf, and another one follows: a packet queue. -/
def packetQueue : List Pbuf → Bool
  | p :: _ :: _ => p.len = p.totLen
  | _ => false

/-- The loop of `pbuf_copy`: at an offset in the first pbuf of either chain. The result is the target
from there on. -/
def pbufCopyLoop : ℕ → List Pbuf → ℕ → List Pbuf → ℕ → Option (List Pbuf)
  | fuel + 1, t :: ts, offsetTo, f :: fs, offsetFrom =>
    let len := if f.len - offsetFrom ≤ t.len - offsetTo then f.len - offsetFrom else t.len - offsetTo
    let t' := { t with
      payload := t.payload.take offsetTo ++ (f.payload.drop offsetFrom).take len ++
        t.payload.drop (offsetTo + len) }
    let source := if f.len ≤ offsetFrom + len then (fs, 0) else (f :: fs, offsetFrom + len)
    if offsetTo + len = t.len then
      if ts = [] ∧ source.1 ≠ [] then none
      else if packetQueue source.1 || packetQueue ts then none
      else if source.1 = [] then some (t' :: ts)
      else (pbufCopyLoop fuel ts 0 source.1 source.2).map (t' :: ·)
    else if packetQueue source.1 || packetQueue (t' :: ts) then none
    else if source.1 = [] then some (t' :: ts)
    else pbufCopyLoop fuel (t' :: ts) (offsetTo + len) source.1 source.2
  | _, _, _, _, _ => none

/-- `pbuf_copy`: the target with the bytes of the source. -/
def pbufCopy (target source : List Pbuf) : Option (List Pbuf) :=
  if target ≠ [] ∧ source ≠ [] ∧ pbufTotLen source ≤ pbufTotLen target then
    pbufCopyLoop (target.length + source.length) target 0 source 0
  else none

/-! ### Totals -/

/-- Every `tot_len` is the number of bytes from its pbuf on. -/
def Totals : List Pbuf → Prop
  | [] => True
  | p :: ps => p.totLen = (pbufBytes (p :: ps)).length ∧ Totals ps

instance : (ps : List Pbuf) → Decidable (Totals ps)
  | [] => inferInstanceAs (Decidable True)
  | _ :: ps =>
    have : Decidable (Totals ps) := instDecidableTotals ps
    inferInstanceAs (Decidable (_ ∧ _))

variable {p : Pbuf} {ps h t : List Pbuf} {n : ℕ}

@[simp] theorem pbufBytes_nil : pbufBytes [] = [] := rfl

@[simp] theorem pbufBytes_cons : pbufBytes (p :: ps) = p.payload ++ pbufBytes ps := rfl

theorem pbufBytes_single : pbufBytes [p] = p.payload := List.append_nil _

@[simp] theorem pbufBytes_append : pbufBytes (h ++ t) = pbufBytes h ++ pbufBytes t :=
  List.flatMap_append

theorem Totals.totLen_eq (ht : Totals ps) : pbufTotLen ps = (pbufBytes ps).length := by
  cases ps with
  | nil => rfl
  | cons p ps => exact ht.1

/-- Hiding bytes that the first pbuf has. -/
theorem Totals.hide (ht : Totals (p :: ps)) (hn : n ≤ p.len)
    (hlen : (pbufBytes (p :: ps)).length < 2 ^ 16) :
    ∃ ps', pbufHide n (p :: ps) = some ps' ∧ Totals ps' ∧ ps'.length = (p :: ps).length ∧
      pbufBytes ps' = (pbufBytes (p :: ps)).drop n := by
  have htot := ht.1
  refine ⟨_, if_pos hn, ⟨?_, ht.2⟩, rfl, ?_⟩
  · simp only [pbufBytes_cons, List.length_append, List.length_drop, Pbuf.len] at *
    omega
  · simp only [pbufBytes_cons]
    rw [List.drop_append_of_le_length hn]

/-- Trimming a chain to `n` of its bytes. -/
theorem Totals.trim {grow : ℕ} (ht : Totals ps) (hn : n < (pbufBytes ps).length)
    (hlen : (pbufBytes ps).length < 2 ^ 16) (hgrow : grow = n + 2 ^ 16 - (pbufBytes ps).length) :
    ∃ ps', pbufTrim grow n ps = some ps' ∧ Totals ps' ∧ ps' ≠ [] ∧ ps'.length ≤ ps.length ∧
      pbufBytes ps' = (pbufBytes ps).take n := by
  induction ps generalizing n with
  | nil => exact absurd hn (Nat.not_lt_zero _)
  | cons p ps ih =>
    have hp := ht.1
    simp only [pbufBytes_cons, List.length_append] at hn hlen hgrow hp
    rw [pbufTrim]
    split_ifs with hrem
    · rw [Pbuf.len] at hrem ⊢
      -- what is missing of the chain is missing of the rest
      obtain ⟨ps', htrim, htot, hne, hlen', hbytes⟩ := ih (n := n - p.payload.length) ht.2
        (by omega) (by omega) (by omega)
      refine ⟨{ p with totLen := (p.totLen + grow) % 2 ^ 16 } :: ps', by rw [htrim, Option.map_some],
        ⟨?_, htot⟩, List.cons_ne_nil _ _, Nat.succ_le_succ hlen', ?_⟩
      · simp only [pbufBytes_cons, List.length_append, hbytes, List.length_take]
        omega
      · simp only [pbufBytes_cons, hbytes]
        rw [List.take_append, List.take_of_length_le (l := p.payload) (by omega)]
    · rw [Pbuf.len] at hrem
      refine ⟨[⟨p.payload.take n, n⟩], rfl, ⟨?_, trivial⟩, List.cons_ne_nil _ _, by simp, ?_⟩
      · simp only [pbufBytes_cons, pbufBytes_nil, List.append_nil, List.length_take]
        omega
      · simp only [pbufBytes_cons, pbufBytes_nil, List.append_nil]
        rw [List.take_append_of_le_length (by omega)]

/-- **`pbuf_realloc`** keeps the first `n` bytes. -/
theorem Totals.realloc (ht : Totals ps) (hne : ps ≠ []) (hlen : (pbufBytes ps).length < 2 ^ 16)
    (n : ℕ) : ∃ ps', pbufRealloc n ps = some ps' ∧ Totals ps' ∧ ps' ≠ [] ∧
      ps'.length ≤ ps.length ∧ pbufBytes ps' = (pbufBytes ps).take n := by
  rw [pbufRealloc, ht.totLen_eq]
  split_ifs with hn
  · exact ⟨ps, rfl, ht, hne, le_refl _, (List.take_of_length_le hn).symm⟩
  · rw [Nat.mod_eq_of_lt (by omega)]
    exact ht.trim (by omega) hlen rfl

/-- The first pbuf of a trimmed chain: what it had, cut to `n` bytes. -/
theorem head?_realloc {ps' : List Pbuf} (h : pbufRealloc n (p :: ps) = some ps')
    (hlen : p.len ≤ p.totLen) : ∃ q, ps'.head? = some q ∧ q.payload = p.payload.take n := by
  rw [pbufRealloc] at h
  split_ifs at h with hn
  · rw [← Option.some.inj h]
    have htot : p.totLen ≤ n := hn
    exact ⟨p, rfl, (List.take_of_length_le (hlen.trans htot)).symm⟩
  · rw [pbufTrim] at h
    split_ifs at h with hrem
    · obtain ⟨qs, -, rfl⟩ := Option.map_eq_some_iff.1 h
      exact ⟨_, rfl, (List.take_of_length_le (Nat.le_of_lt hrem)).symm⟩
    · rw [← Option.some.inj h]
      exact ⟨_, rfl, rfl⟩

/-- At least one pbuf is kept, and no more than there were. -/
theorem length_realloc {ps' : List Pbuf} (h : pbufRealloc n ps = some ps') (hne : ps ≠ []) :
    ps' ≠ [] ∧ ps'.length ≤ ps.length := by
  have htrim : ∀ (grow n : ℕ) (ps ps' : List Pbuf), pbufTrim grow n ps = some ps' →
      ps' ≠ [] ∧ ps'.length ≤ ps.length := by
    intro grow n ps
    induction ps generalizing n with
    | nil => exact fun ps' h ↦ by cases h
    | cons p ps ih =>
      intro ps' h
      rw [pbufTrim] at h
      split_ifs at h
      · obtain ⟨qs, hqs, rfl⟩ := Option.map_eq_some_iff.1 h
        exact ⟨List.cons_ne_nil _ _, Nat.succ_le_succ (ih _ _ hqs).2⟩
      · cases h
        exact ⟨List.cons_ne_nil _ _, by simp⟩
  rw [pbufRealloc] at h
  split_ifs at h
  · cases h
    exact ⟨hne, le_refl _⟩
  · exact htrim _ _ _ _ h

/-- The first pbuf of a concatenation. -/
theorem head?_cat {c : List Pbuf} (h : pbufCat t (p :: ps) = some c) :
    ∃ q, c.head? = some q ∧ q.payload = p.payload := by
  cases ps with
  | nil =>
    rw [pbufCat] at h
    split_ifs at h
    rw [← Option.some.inj h]
    exact ⟨_, rfl, rfl⟩
  | cons q qs =>
    rw [pbufCat] at h
    obtain ⟨c', -, rfl⟩ := Option.map_eq_some_iff.1 h
    exact ⟨_, rfl, rfl⟩

/-- A concatenation has the second chain at its end, and before it the first, but for its totals. -/
theorem append_of_cat {c : List Pbuf} (hc : pbufCat t h = some c) :
    ∃ h', c = h' ++ t ∧ h'.map Pbuf.payload = h.map Pbuf.payload := by
  induction h generalizing c with
  | nil => cases hc
  | cons p ps ih =>
    cases ps with
    | nil =>
      rw [pbufCat] at hc
      split_ifs at hc
      rw [← Option.some.inj hc]
      exact ⟨[_], rfl, rfl⟩
    | cons q qs =>
      rw [pbufCat] at hc
      obtain ⟨c', hc', rfl⟩ := Option.map_eq_some_iff.1 hc
      obtain ⟨h', rfl, hpay⟩ := ih hc'
      exact ⟨_ :: h', rfl, congrArg (p.payload :: ·) hpay⟩

/-- Concatenating two chains whose bytes fit into a `tot_len` together. -/
theorem Totals.cat (hh : Totals h) (ht : Totals t) (hne : h ≠ [])
    (hlen : (pbufBytes h).length + (pbufBytes t).length < 2 ^ 16) :
    ∃ c, pbufCat t h = some c ∧ Totals c ∧ c.length = h.length + t.length ∧
      pbufBytes c = pbufBytes h ++ pbufBytes t := by
  have htot := ht.totLen_eq
  induction h with
  | nil => exact absurd rfl hne
  | cons p ps ih =>
    have hp := hh.1
    cases ps with
    | nil =>
      simp only [pbufBytes_cons, pbufBytes_nil, List.append_nil] at hp hlen
      refine ⟨_, if_pos hp, ⟨?_, ht⟩, by simp; omega, by simp⟩
      simp only [pbufBytes_cons, List.length_append, htot]
      omega
    | cons q qs =>
      simp only [pbufBytes_cons, List.length_append] at hp hlen
      obtain ⟨c, hc, hct, hcl, hcb⟩ := ih hh.2 (List.cons_ne_nil _ _) (by
        simp only [pbufBytes_cons, List.length_append]
        omega)
      refine ⟨{ p with totLen := (p.totLen + pbufTotLen t) % 2 ^ 16 } :: c, ?_, ⟨?_, hct⟩, ?_, ?_⟩
      · rw [pbufCat, hc]
        rfl
      · simp only [pbufBytes_cons, hcb, List.length_append, htot]
        omega
      · simp only [List.length_cons, hcl]
        omega
      · simp only [pbufBytes_cons, hcb, List.append_assoc]

/-- A byte of a pbuf is written. -/
def Pbuf.write (p : Pbuf) (i : ℕ) (c : BitVec 8) : Pbuf := { p with payload := p.payload.set i c }

@[simp] theorem Pbuf.write_len (p : Pbuf) (i : ℕ) (c : BitVec 8) : (p.write i c).len = p.len := List.length_set

theorem Pbuf.write_take {i : ℕ} {c : BitVec 8} (hi : i < p.len) :
    (p.write i c).payload.take (i + 1) = p.payload.take i ++ [c] := by
  rw [Pbuf.write, List.take_add_one, List.getElem?_set_self hi, List.take_set_of_le le_rfl]
  rfl

theorem modify_at {α : Type*} (f : α → α) (pre : List α) (b : α) (post : List α) :
    (pre ++ b :: post).modify pre.length f = pre ++ f b :: post := by
  induction pre with
  | nil => rfl
  | cons p pre ih => rw [List.cons_append, List.length_cons, List.modify_succ_cons, ih, List.cons_append]

/-- Writing into a chain leaves its totals right. -/
theorem Totals.write (ht : Totals (h ++ p :: t)) (i : ℕ) (c : BitVec 8) :
    Totals (h ++ p.write i c :: t) ∧ (pbufBytes (h ++ p.write i c :: t)).length = (pbufBytes (h ++ p :: t)).length := by
  induction h with
  | nil =>
    have hlength : (pbufBytes (p.write i c :: t)).length = (pbufBytes (p :: t)).length := by
      simp only [pbufBytes_cons, List.length_append, Pbuf.write, List.length_set]
    exact ⟨⟨ht.1.trans hlength.symm, ht.2⟩, hlength⟩
  | cons q h ih =>
    obtain ⟨htotals, hlength⟩ := ih ht.2
    have hcons : (pbufBytes (q :: (h ++ p.write i c :: t))).length = (pbufBytes (q :: (h ++ p :: t))).length := by
      simp only [pbufBytes_cons, List.length_append] at hlength ⊢
      omega
    exact ⟨⟨ht.1.trans hcons.symm, htotals⟩, hcons⟩

/-- The walk of `pbuf_copy` into one pbuf that has just the room for the rest of the source. -/
theorem Totals.copyLoop {t : Pbuf} {off fuel : ℕ} {r : List Pbuf} (ht : Totals ps)
    (hoff : off + (pbufBytes ps).length = t.len) (hcopy : pbufCopyLoop fuel [t] off ps 0 = some r) :
    r = [{ t with payload := t.payload.take off ++ pbufBytes ps }] := by
  induction ps generalizing t off fuel with
  | nil =>
    cases fuel <;> cases hcopy
  | cons f fs ih =>
    obtain ⟨fuel, rfl⟩ : ∃ n, fuel = n + 1 := by
      cases fuel with
      | zero => cases hcopy
      | succ n => exact ⟨n, rfl⟩
    rw [Pbuf.len] at hoff
    simp only [pbufBytes_cons, List.length_append] at hoff
    have hfits : f.payload.length ≤ t.payload.length - off := by omega
    have htake : f.payload.take f.payload.length = f.payload := List.take_length
    simp only [pbufCopyLoop, Pbuf.len, Nat.sub_zero, hfits, if_true, Nat.zero_add, le_refl,
      List.drop_zero, htake] at hcopy
    by_cases hend : off + f.payload.length = t.payload.length
    · -- the pbuf is full: nothing may follow in the source
      rw [if_pos hend] at hcopy
      by_cases hfs : fs = []
      · subst hfs
        rw [if_neg (by simp), if_neg (by simp [packetQueue]), if_pos rfl] at hcopy
        rw [← Option.some.inj hcopy, hend]
        simp
      · rw [if_pos (by simpa using hfs)] at hcopy
        cases hcopy
    · rw [if_neg hend] at hcopy
      have hfs : fs ≠ [] := by
        rintro rfl
        simp only [pbufBytes_nil, List.length_nil, Nat.add_zero] at hoff
        exact hend hoff
      split_ifs at hcopy
      rw [ih ht.2 ?_ hcopy]
      · have hoff' : min off t.payload.length = off := by omega
        simp [List.take_append, List.take_take, hoff']
      · simp only [Pbuf.len, List.length_append, List.length_take, List.length_drop]
        omega

/-- **`pbuf_copy`** into one pbuf of the same length copies the bytes. -/
theorem Totals.copy {t : Pbuf} {r : List Pbuf} (ht : Totals ps)
    (hlen : (pbufBytes ps).length = t.len) (hcopy : pbufCopy [t] ps = some r) :
    r = [{ t with payload := pbufBytes ps }] := by
  rw [pbufCopy] at hcopy
  split_ifs at hcopy
  rw [ht.copyLoop (by omega) hcopy]
  rfl

end Lwip.Core
