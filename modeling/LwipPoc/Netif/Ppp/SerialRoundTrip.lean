import LwipPoc.Netif.Ppp.Serial
import Mathlib.Tactic.IntervalCases

/-!
# What PPP sends is what it receives

The round trip over a serial line, for a receiver that escapes no more characters than the sender
(`Maps`), and packets that fit into a `tot_len` with what the receiver puts before and behind them.

* The **check sequence** of a frame with its own check characters is `PPP_GOODFCS` (`foldl_fcsBytes`): of the
  table only two entries matter for that.
* The **sender** writes the code of the characters of a frame and a flag (`Send.bytes_eq`).
* The **receiver** takes the code of a character as the character (`feed_coded`); behind the header it holds
  the characters in its pbufs (`Holding`), and at the flag cuts off the last two (`Buffered.trimFcs`).
-/

namespace Lwip.Netif.Ppp

open Lwip.Core

/-! ### The frame check sequence -/

/-- The check sequence of some characters. -/
def fcsOf (cs : List (BitVec 8)) : BitVec 16 := cs.foldl pppFcs pppInitfcs

/-- The two characters that are sent for it. -/
def fcsBytes (f : BitVec 16) : List (BitVec 8) := [(~~~f).setWidth 8, (~~~f >>> 8).setWidth 8]

/-- The sender keeps 32 bits of the check sequence, the receiver 16. -/
theorem pppFcs_setWidth (f : BitVec 16) (c : BitVec 8) : pppFcs (f.setWidth 32) c = (pppFcs f c).setWidth 32 := by
  have hlow : (f.setWidth 32 ^^^ c.setWidth 32) &&& 0xff = ((f ^^^ c.setWidth 16) &&& 0xff).setWidth 32 := by
    ext i hi
    simp
  have hxor : ∀ t : BitVec 16, (f.setWidth 32 >>> 8) ^^^ t.setWidth 32 = ((f >>> 8) ^^^ t).setWidth 32 := by
    intro t
    ext i hi
    simp
  rw [pppFcs, pppFcs, hlow, BitVec.toNat_setWidth_of_le (by decide), hxor, BitVec.setWidth_eq]

theorem foldl_pppFcs_setWidth (cs : List (BitVec 8)) (f : BitVec 16) :
    cs.foldl pppFcs (f.setWidth 32) = (cs.foldl pppFcs f).setWidth 32 := by
  induction cs generalizing f with
  | nil => rfl
  | cons c cs ih => rw [List.foldl_cons, List.foldl_cons, pppFcs_setWidth, ih]

/-- **The check characters** take any sequence to the good one. -/
theorem foldl_fcsBytes (f : BitVec 16) : (fcsBytes f).foldl pppFcs f = pppGoodfcs := by
  have hfirst : pppFcs f ((~~~f).setWidth 8) = (f >>> 8) ^^^ 0x0f78 := by
    have hlow : (f ^^^ ((~~~f).setWidth 8).setWidth 16) &&& 0xff = 0xff := by
      ext i hi
      simp
      interval_cases i <;> simp
    rw [pppFcs, hlow]
    rfl
  have hsecond : pppFcs ((f >>> 8) ^^^ 0x0f78) ((~~~f >>> 8).setWidth 8) = pppGoodfcs := by
    have hlow : ((f >>> 8) ^^^ (0x0f78 : BitVec 16) ^^^ ((~~~f >>> 8).setWidth 8).setWidth 16) &&& 0xff = 0x87 := by
      ext i hi
      simp
      interval_cases i <;> simp
    have hhigh : ((f >>> 8) ^^^ 0x0f78) >>> 8 = 0x0f := by
      ext i hi
      simp
      interval_cases i <;> simp
    rw [pppFcs, hlow, hhigh]
    rfl
  rw [fcsBytes, List.foldl_cons, List.foldl_cons, List.foldl_nil, hfirst, hsecond]

/-! ### What is sent -/

/-- The code of a character. -/
def coded (accm : ExtAccm) (c : BitVec 8) : List (BitVec 8) :=
  if escapeP accm c then [pppEscape, c ^^^ pppTrans] else [c]

/-- A frame with the characters `cs` before the check sequence. -/
def frame (accm : ExtAccm) (cs : List (BitVec 8)) : List (BitVec 8) :=
  (cs ++ fcsBytes (fcsOf cs)).flatMap (coded accm) ++ [pppFlag]

section

variable {pc : PppControl} {alloc : ℕ → Bool} {nb : OutChain} {c : BitVec 8}

theorem bytes_some (front : List (List (BitVec 8))) (t : List (BitVec 8)) :
    OutChain.bytes ⟨front, some t⟩ = front.flatten ++ t := by
  rw [OutChain.bytes]
  simp

/-- With memory, `pppAppend` writes what it is to write. -/
theorem pppAppend_bytes (halloc : ∀ k, alloc k = true) (hsome : nb.tail.isSome = true) (accm : Option ExtAccm) :
    (pppAppend alloc c nb accm).tail.isSome = true ∧
      (pppAppend alloc c nb accm).bytes = nb.bytes ++ (accm.map (coded · c)).getD [c] := by
  obtain ⟨t, ht⟩ := Option.isSome_iff_exists.1 hsome
  have hcode : ∀ t : List (BitVec 8), (if (accm.map (escapeP · c)).getD false then t ++ [pppEscape, c ^^^ pppTrans]
      else t ++ [c]) = t ++ (accm.map (coded · c)).getD [c] := by
    intro t
    cases accm with
    | none => rfl
    | some accm =>
      dsimp only [Option.map_some, Option.getD_some]
      rw [coded]
      split_ifs <;> rfl
  obtain ⟨front, tail⟩ := nb
  obtain rfl : tail = some t := ht
  rw [pppAppend]
  simp only [halloc, if_true, hcode]
  split_ifs
  · refine ⟨rfl, ?_⟩
    rw [Option.map_some, bytes_some, bytes_some]
    simp
  · refine ⟨rfl, ?_⟩
    rw [Option.map_some, bytes_some, bytes_some, List.append_assoc]

/-- The characters of a frame, one after another. -/
theorem foldl_put (halloc : ∀ k, alloc k = true) (cs : List (BitVec 8)) (r : BitVec 32 × OutChain)
    (hsome : r.2.tail.isSome = true) :
    (cs.foldl (put pc alloc) r).1 = cs.foldl pppFcs r.1 ∧ (cs.foldl (put pc alloc) r).2.tail.isSome = true ∧
      (cs.foldl (put pc alloc) r).2.bytes = r.2.bytes ++ cs.flatMap (coded pc.outACCM) := by
  induction cs generalizing r with
  | nil => exact ⟨rfl, hsome, (List.append_nil _).symm⟩
  | cons c cs ih =>
    obtain ⟨hsome', hbytes⟩ := pppAppend_bytes (c := c) halloc hsome (some pc.outACCM)
    obtain ⟨hfcs, hsome'', hbytes'⟩ := ih (put pc alloc r c) hsome'
    refine ⟨hfcs, hsome'', hbytes'.trans ?_⟩
    rw [List.flatMap_cons, ← List.append_assoc]
    exact congrArg (· ++ _) hbytes

/-- A flag at the beginning. -/
def idleFlag (pc : PppControl) (env : OutEnv) : List (BitVec 8) :=
  if 100 ≤ env.now - pc.lastXMit then [pppFlag] else []

theorem openFrame_bytes {env : OutEnv} (halloc : ∀ k, env.alloc k = true) :
    (openFrame pc env).1 = pppInitfcs.setWidth 32 ∧ (openFrame pc env).2.tail.isSome = true ∧
      (openFrame pc env).2.bytes = idleFlag pc env := by
  rw [openFrame, idleFlag]
  split_ifs
  · have hopen : (pppAppend env.alloc pppFlag ⟨[], some []⟩ none).tail.isSome = true ∧ _ := pppAppend_bytes halloc rfl none
    obtain ⟨hsome, hbytes⟩ := hopen
    exact ⟨rfl, hsome, hbytes⟩
  · exact ⟨rfl, rfl, rfl⟩

/-- From the first flag to the last. -/
theorem closeFrame_bytes {env : OutEnv} (halloc : ∀ k, env.alloc k = true) (cs : List (BitVec 8)) :
    (closeFrame pc env (cs.foldl (put pc env.alloc) (openFrame pc env))).1 = .ok ∧
      (closeFrame pc env (cs.foldl (put pc env.alloc) (openFrame pc env))).2.1 =
        idleFlag pc env ++ frame pc.outACCM cs := by
  obtain ⟨hinit, hopen, hflag⟩ : (openFrame pc env).1 = _ ∧ _ := openFrame_bytes halloc
  obtain ⟨hfcs, hsome, hbytes⟩ : (cs.foldl (put pc env.alloc) (openFrame pc env)).1 = _ ∧ _ :=
    foldl_put halloc cs (openFrame pc env) hopen
  rw [hinit, foldl_pppFcs_setWidth] at hfcs
  generalize cs.foldl (put pc env.alloc) (openFrame pc env) = r at hfcs hsome hbytes
  obtain ⟨hsome₁, hbytes₁⟩ := pppAppend_bytes (c := (~~~r.1).setWidth 8) halloc hsome (some pc.outACCM)
  obtain ⟨hsome₂, hbytes₂⟩ := pppAppend_bytes (c := (~~~r.1 >>> 8).setWidth 8) halloc hsome₁ (some pc.outACCM)
  obtain ⟨hsome₃, hbytes₃⟩ := pppAppend_bytes (c := pppFlag) halloc hsome₂ none
  rw [closeFrame, if_pos hsome₃]
  refine ⟨rfl, ?_⟩
  have hcheck : [(~~~r.1).setWidth 8, (~~~r.1 >>> 8).setWidth 8] = fcsBytes (fcsOf cs) := by
    rw [hfcs, fcsBytes, fcsOf]
    congr 1
    · ext i hi
      simp
    · congr 1
      ext i hi
      simp
      interval_cases i <;> simp
  rw [hbytes₃, hbytes₂, hbytes₁, hbytes, hflag, frame, ← hcheck]
  simp [List.flatMap_append]

end

/-- The characters before the data of an IP packet. -/
def ipHeader (pc : PppControl) : List (BitVec 8) :=
  (if pc.accomp = false then [pppAllstations, pppUi] else []) ++
    if pc.pcomp = false then [0x00, 0x21] else [0x21]

/-- A call of the output that gets through: the link is up and there is memory. -/
inductive Send
  | ifOutput (pc : PppControl) (env : OutEnv) (pb : List Pbuf)
  | write (pc : PppControl) (env : OutEnv) (s : List (BitVec 8))

namespace Send

/-- The control block with which it is called. -/
def pc : Send → PppControl
  | ifOutput pc _ _ | write pc _ _ => pc

/-- What it finds. -/
def env : Send → OutEnv
  | ifOutput _ env _ | write _ env _ => env

/-- The bytes that it writes. -/
def bytes : Send → List (BitVec 8)
  | ifOutput pc env pb => (pppifOutput pc env pb).2.1
  | write pc env s => (pppWrite pc env s).2.1

/-- The characters before the check sequence. -/
def chars : Send → List (BitVec 8)
  | ifOutput pc _ pb => ipHeader pc ++ pbufBytes pb
  | write _ _ s => s

/-- There is memory; for an IP packet the interface is open, the link is up and there is a pbuf. -/
def Ready : Send → Prop
  | ifOutput pc env pb => pc.openFlag = true ∧ pb ≠ [] ∧ env.linkUp = true ∧ env.first = true ∧ ∀ k, env.alloc k = true
  | write _ env _ => env.first = true ∧ ∀ k, env.alloc k = true

/-- **A call that gets through** writes a frame, perhaps with a flag before it. -/
theorem bytes_eq {x : Send} (h : x.Ready) : x.bytes = idleFlag x.pc x.env ++ frame x.pc.outACCM x.chars := by
  cases x with
  | write pc env s =>
    obtain ⟨hfirst, halloc⟩ := h
    show (pppWrite pc env s).2.1 = _
    rw [pppWrite, if_neg (by rw [hfirst]; decide)]
    exact (closeFrame_bytes halloc s).2
  | ifOutput pc env pb =>
    obtain ⟨hopen, hpb, hup, hfirst, halloc⟩ := h
    show (pppifOutput pc env pb).2.1 = _
    rw [pppifOutput, if_neg (by rw [hopen]; exact fun h ↦ h.elim nofun hpb),
      if_neg (by rw [hup]; decide), if_neg (by rw [hfirst]; decide)]
    have hfold : ∀ r, pb.foldl (fun r p ↦ p.payload.foldl (put pc env.alloc) r) r =
        (pbufBytes pb).foldl (put pc env.alloc) r := by
      intro r
      rw [pbufBytes, List.foldl_flatMap]
    have hheader : (let r := openFrame pc env
        let r := if pc.accomp = false then put pc env.alloc (put pc env.alloc r pppAllstations) pppUi else r
        let r := if pc.pcomp = false ∨ 0xff < pppIp then put pc env.alloc r ((pppIp >>> 8).setWidth 8) else r
        put pc env.alloc r (pppIp.setWidth 8)) = (ipHeader pc).foldl (put pc env.alloc) (openFrame pc env) := by
      rw [ipHeader]
      cases pc.accomp <;> cases pc.pcomp <;> rfl
    dsimp only at hheader ⊢
    rw [hfold, hheader, ← List.foldl_append]
    exact (closeFrame_bytes halloc _).2

end Send

/-! ### Characters -/

/-- The receiver's map is contained in the sender's; both have the escape and the flag, and otherwise only
control codes. -/
structure Maps (outACCM inACCM : ExtAccm) : Prop where
  sub : ∀ c, escapeP inACCM c = true → escapeP outACCM c = true
  escape : escapeP inACCM pppEscape = true
  flag : escapeP inACCM pppFlag = true
  control : ∀ c, escapeP outACCM c = true → c = pppEscape ∨ c = pppFlag ∨ c < 0x20

/-- The receiver, with memory; the input has what is in the padding of a header. -/
abbrev inProc (x : BitVec 8 × BitVec 16) : PppControlRx → Option (PppControlRx × Option (List Pbuf)) :=
  pppInProc x.1 (some x.2)

variable {outACCM inACCM : ExtAccm} {s t : PppControlRx} {c : BitVec 8}

theorem inProc_plain (hc : escapeP s.inACCM c = false) (hs : s.inEscaped = false) (pad : BitVec 16) :
    inProc (c, pad) s = (s.process c (some pad)).map (·, none) := by
  rw [inProc, pppInProc, hc, hs]
  rfl

theorem inProc_flag (hflag : escapeP s.inACCM pppFlag = true) (pad : BitVec 16) : inProc (pppFlag, pad) s = s.flag := by
  rw [inProc, pppInProc]
  simp only [hflag, if_true]
  rfl

/-- **The code of a character** is taken as the character. -/
theorem feed_coded (hmaps : Maps outACCM inACCM) (hs : s.inEscaped = false) (haccm : s.inACCM = inACCM)
    {as : List (BitVec 8 × BitVec 16)} (has : as.map Prod.fst = coded outACCM c) :
    ∃ pad, ∀ t, s.process c (some pad) = some t → feed inProc as s = some (t, []) := by
  have hfree : ∀ c, escapeP outACCM c = false → escapeP s.inACCM c = false := by
    intro c hc
    rw [haccm, ← Bool.not_eq_true]
    exact fun h ↦ Bool.false_ne_true (hc.symm.trans (hmaps.sub c h))
  rw [coded] at has
  by_cases hc : escapeP outACCM c = true
  · rw [if_pos hc] at has
    obtain ⟨⟨-, pad⟩, as, rfl, rfl, htail⟩ := List.map_eq_cons_iff.1 has
    obtain ⟨⟨e, pad'⟩, as, rfl, rfl, hnil⟩ := List.map_eq_cons_iff.1 htail
    obtain rfl := List.map_eq_nil_iff.1 hnil
    refine ⟨pad', fun t ht ↦ ?_⟩
    -- what is sent for a character that is escaped is not in the map
    have htrans : ∀ c : BitVec 8, c = pppEscape ∨ c = pppFlag ∨ c < 0x20 →
        ¬(c ^^^ pppTrans = pppEscape ∨ c ^^^ pppTrans = pppFlag ∨ c ^^^ pppTrans < 0x20) := by
      decide
    have hsent : escapeP s.inACCM (c ^^^ pppTrans) = false := by
      refine hfree _ (Bool.eq_false_of_not_eq_true fun h ↦ ?_)
      exact htrans c (hmaps.control c hc) (hmaps.control _ h)
    have hescape : inProc (pppEscape, pad) s = some ({ s with inEscaped := true }, none) := by
      rw [inProc, pppInProc, haccm, if_pos hmaps.escape, if_pos rfl]
    have hsame : { s with inEscaped := false } = s := by
      rw [← hs]
    have hback : c ^^^ pppTrans ^^^ pppTrans = c := by
      rw [BitVec.xor_assoc, BitVec.xor_self, BitVec.xor_zero]
    have hchar : inProc (c ^^^ pppTrans, pad') { s with inEscaped := true } = some (t, none) := by
      rw [inProc, pppInProc]
      dsimp only
      rw [hsent, if_neg Bool.false_ne_true, if_pos rfl]
      dsimp only
      rw [hsame, hback, ht]
      rfl
    exact feed_cons_some hescape (feed_cons_some hchar rfl)
  · rw [if_neg hc] at has
    obtain ⟨⟨c, pad⟩, as, rfl, rfl, hnil⟩ := List.map_eq_cons_iff.1 has
    obtain rfl := List.map_eq_nil_iff.1 hnil
    refine ⟨pad, fun t ht ↦ feed_cons_some (o := none) ?_ rfl⟩
    rw [inProc_plain (hfree c (Bool.eq_false_of_not_eq_true hc)) hs, ht]
    rfl

/-! ### The header -/

/-- A header: the address and control field, or nothing, and the protocol in two bytes, or in one if that is
no part of the other. -/
inductive Header : List (BitVec 8) → BitVec 16 → Prop
  | full (p q : BitVec 8) (hp : p &&& 1 = 0) : Header [pppAllstations, pppUi, p, q] (p ++ q)
  | short (p : BitVec 8) (hp : p &&& 1 ≠ 0) : Header [pppAllstations, pppUi, p] (p.setWidth 16)
  | bare (p q : BitVec 8) (hp : p &&& 1 = 0) : Header [p, q] (p ++ q)
  | least (p : BitVec 8) (hp : p &&& 1 ≠ 0) (hall : p ≠ pppAllstations) (hui : p ≠ pppUi) :
      Header [p] (p.setWidth 16)

theorem header_ip (pc : PppControl) : Header (ipHeader pc) pppIp := by
  rw [ipHeader]
  cases pc.accomp <;> cases pc.pcomp
  · exact .full 0x00 0x21 rfl
  · exact .short 0x21 (by decide)
  · exact .bare 0x00 0x21 rfl
  · exact .least 0x21 (by decide) (by decide) (by decide)

/-- A protocol of two bytes. -/
theorem protocol_append (p q : BitVec 8) : p.setWidth 16 <<< 8 ||| q.setWidth 16 = p ++ q := by
  refine BitVec.eq_of_getLsbD_eq fun i hi ↦ ?_
  simp only [BitVec.getLsbD_append, BitVec.getLsbD_setWidth, BitVec.getLsbD_or, BitVec.getLsbD_shiftLeft]
  interval_cases i <;> simp

/-- The receiver before the data. -/
def before (inACCM : ExtAccm) (pd : BitVec 32) (proto fcs : BitVec 16) (state : PppDevStates) : PppControlRx :=
  ⟨pd, [], .null, proto, fcs, state, false, inACCM⟩

section

variable (pd : BitVec 32) (old fcs : BitVec 16) (pad : BitVec 16) {p : BitVec 8}

theorem process_protocol1 (hp : p &&& 1 = 0) :
    (before inACCM pd old fcs .pdProtocol1).process p (some pad) =
      some (before inACCM pd (p.setWidth 16 <<< 8) (pppFcs fcs p) .pdProtocol2) := by
  rw [PppControlRx.process]
  show (some (PppControlRx.protocol1 _ p)).map _ = _
  rw [PppControlRx.protocol1, if_neg (not_not.2 hp)]
  rfl

theorem process_protocol1_short (hp : p &&& 1 ≠ 0) :
    (before inACCM pd old fcs .pdProtocol1).process p (some pad) =
      some (before inACCM pd (p.setWidth 16) (pppFcs fcs p) .pdData) := by
  rw [PppControlRx.process]
  show (some (PppControlRx.protocol1 _ p)).map _ = _
  rw [PppControlRx.protocol1, if_pos hp]
  rfl

theorem process_protocol2 (q : BitVec 8) :
    (before inACCM pd (p.setWidth 16 <<< 8) fcs .pdProtocol2).process q (some pad) =
      some (before inACCM pd (p ++ q) (pppFcs fcs q) .pdData) := by
  rw [← protocol_append]
  rfl

/-- A character that is no part of the address and control field is taken for the protocol. -/
theorem process_address (hall : p ≠ pppAllstations) (hui : p ≠ pppUi) :
    (before inACCM pd old fcs .pdAddress).process p (some pad) =
      ((before inACCM pd old fcs .pdProtocol1).process p (some pad)) := by
  rw [PppControlRx.process, PppControlRx.process]
  show (some (PppControlRx.address _ p)).map _ = (some (PppControlRx.protocol1 _ p)).map _
  rw [PppControlRx.address, if_neg hall, PppControlRx.control, if_neg hui, PppControlRx.protocol1,
    PppControlRx.protocol1]
  split_ifs <;> rfl

end

/-- The code of a character, and of those behind it. -/
theorem feed_coded_cons (hmaps : Maps outACCM inACCM) (hs : s.inEscaped = false) (haccm : s.inACCM = inACCM)
    {u : PppControlRx} {cs : List (BitVec 8)} {as : List (BitVec 8 × BitVec 16)}
    (hchar : ∀ pad, s.process c (some pad) = some t)
    (hrest : ∀ as : List (BitVec 8 × BitVec 16), as.map Prod.fst = cs.flatMap (coded outACCM) →
      feed inProc as t = some (u, []))
    (has : as.map Prod.fst = (c :: cs).flatMap (coded outACCM)) : feed inProc as s = some (u, []) := by
  rw [List.flatMap_cons] at has
  obtain ⟨as₁, as₂, rfl, has₁, has₂⟩ := List.map_eq_append_iff.1 has
  obtain ⟨pad, hfeed⟩ := feed_coded hmaps hs haccm has₁
  exact feed_append_some (hfeed t (hchar pad)) (hrest as₂ has₂)

/-- **The header** is read, whatever protocol was read before. -/
theorem feed_header (hmaps : Maps outACCM inACCM) {hd : List (BitVec 8)} {proto : BitVec 16} (hhd : Header hd proto)
    (pd : BitVec 32) (old : BitVec 16) {as : List (BitVec 8 × BitVec 16)}
    (has : as.map Prod.fst = hd.flatMap (coded outACCM)) :
    feed inProc as (before inACCM pd old pppInitfcs .pdAddress) =
      some (before inACCM pd proto (fcsOf hd) .pdData, []) := by
  have hnone : ∀ (s : PppControlRx) (as : List (BitVec 8 × BitVec 16)),
      as.map Prod.fst = [].flatMap (coded outACCM) → feed inProc as s = some (s, []) := by
    intro s as has
    obtain rfl := List.map_eq_nil_iff.1 has
    rfl
  have heven : ∀ p : BitVec 8, p &&& 1 = 0 → p ≠ pppAllstations ∧ p ≠ pppUi := by decide
  cases hhd with
  | full p q hp =>
    refine feed_coded_cons hmaps rfl rfl (fun pad ↦ rfl) (fun as has ↦ ?_) has
    refine feed_coded_cons hmaps rfl rfl (fun pad ↦ rfl) (fun as has ↦ ?_) has
    refine feed_coded_cons hmaps rfl rfl (fun pad ↦ process_protocol1 pd old _ pad hp) (fun as has ↦ ?_) has
    exact feed_coded_cons hmaps rfl rfl (fun pad ↦ process_protocol2 pd _ pad q) (hnone _) has
  | short p hp =>
    refine feed_coded_cons hmaps rfl rfl (fun pad ↦ rfl) (fun as has ↦ ?_) has
    refine feed_coded_cons hmaps rfl rfl (fun pad ↦ rfl) (fun as has ↦ ?_) has
    exact feed_coded_cons hmaps rfl rfl (fun pad ↦ process_protocol1_short pd old _ pad hp) (hnone _) has
  | bare p q hp =>
    obtain ⟨hall, hui⟩ := heven p hp
    refine feed_coded_cons hmaps rfl rfl (fun pad ↦ (process_address pd old _ pad hall hui).trans
      (process_protocol1 pd old _ pad hp)) (fun as has ↦ ?_) has
    exact feed_coded_cons hmaps rfl rfl (fun pad ↦ process_protocol2 pd _ pad q) (hnone _) has
  | least p hp hall hui =>
    exact feed_coded_cons hmaps rfl rfl (fun pad ↦ (process_address pd old _ pad hall hui).trans
      (process_protocol1_short pd old _ pad hp)) (hnone _) has

/-! ### The data -/

/-- **The characters `xs` are in the pbufs**, behind the header for `pppInput`. -/
inductive Buffered (pih : PppInputHeader) : List (BitVec 8) → List Pbuf → InTail → Prop
  | empty : Buffered pih [] [] .null
  | head (pad : BitVec 16) (xs : List (BitVec 8)) (totLen : ℕ) (hne : xs ≠ []) (hle : 8 + xs.length ≤ pbufPoolBufsize) :
      Buffered pih xs [⟨pih.bytes pad ++ xs, totLen⟩] .head
  | own (pad : BitVec 16) (xs : List (BitVec 8)) (p : Pbuf) (ps : List Pbuf) (t : Pbuf) (htotals : Totals (p :: ps))
      (hfirst : 8 ≤ p.len) (hne : t.payload ≠ []) (hle : t.len ≤ pbufPoolBufsize)
      (hbytes : pbufBytes (p :: ps) ++ t.payload = pih.bytes pad ++ xs) : Buffered pih xs (p :: ps) (.own t)

/-- The receiver in the data: `xs` is what is behind the header, whose check sequence is `fcs`. -/
def Holding (inACCM : ExtAccm) (pd : BitVec 32) (proto fcs : BitVec 16) (xs : List (BitVec 8)) (s : PppControlRx) :
    Prop :=
  ∃ q tl, s = ⟨pd, q, tl, proto, xs.foldl pppFcs fcs, .pdData, false, inACCM⟩ ∧ Buffered ⟨pd, proto⟩ xs q tl

theorem bytes_length (pih : PppInputHeader) (pad : BitVec 16) : (pih.bytes pad).length = 8 := rfl

/-- The last pbuf is linked: a chain that begins with the header. -/
theorem Buffered.cat {pih : PppInputHeader} {pad : BitVec 16} {xs : List (BitVec 8)} {p : Pbuf} {ps : List Pbuf}
    {t : Pbuf} (htotals : Totals (p :: ps)) (hfirst : 8 ≤ p.len)
    (hbytes : pbufBytes (p :: ps) ++ t.payload = pih.bytes pad ++ xs) (hlen : 8 + xs.length < 2 ^ 16) :
    ∃ q qs, pbufCat [{ t with totLen := t.len }] (p :: ps) = some (q :: qs) ∧ Totals (q :: qs) ∧ 8 ≤ q.len ∧
      pbufBytes (q :: qs) = pih.bytes pad ++ xs := by
  have htail : Totals [{ t with totLen := t.len }] := by
    refine ⟨?_, trivial⟩
    rw [pbufBytes_cons, pbufBytes_nil, List.append_nil]
    rfl
  have hroom : (pbufBytes (p :: ps)).length + (pbufBytes [{ t with totLen := t.len }]).length < 2 ^ 16 := by
    rw [pbufBytes_single, ← List.length_append, hbytes, List.length_append,
      bytes_length]
    exact hlen
  obtain ⟨chain, hcat, htotals', -, hchain⟩ := htotals.cat htail (List.cons_ne_nil _ _) hroom
  obtain ⟨q, hq, hpayload⟩ := head?_cat hcat
  obtain ⟨qs, rfl⟩ := List.head?_eq_some_iff.1 hq
  refine ⟨q, qs, hcat, htotals', ?_, ?_⟩
  · rw [Pbuf.len, hpayload]
    exact hfirst
  · rw [hchain, pbufBytes_single]
    exact hbytes

section

variable {mem : Option (BitVec 16)} {n : ℕ}

theorem data_room (h : s.tailLen = some n) (hn : n ≠ pbufPoolBufsize) : s.data c mem = some (s.load c) := by
  rw [PppControlRx.data, h, if_neg]
  rintro (h | h)
  · cases h
  · exact hn (Option.some.inj h)

theorem data_full (h : s.tailLen = some pbufPoolBufsize) : s.data c mem =
    (match s.inTail with
      | .null => some s
      | .head => s.link.map fun ps ↦ { s with inHead := ps }
      | .own _ => s.link.map fun ps ↦ { s with inHead := ps, inTail := .null }).map fun s : PppControlRx ↦
        match mem with
        | none => { s.pppDrop with inState := .pdStart }
        | some pad =>
          if s.inHead = [] then
            { s with inHead := [⟨PppInputHeader.bytes ⟨s.pd, s.inProtocol⟩ pad, 0⟩], inTail := .head }.load c
          else { s with inTail := .own ⟨[], 0⟩ }.load c := by
  rw [PppControlRx.data, h]
  exact if_pos (Or.inr rfl)

end

/-- A character more in the pbufs. -/
theorem Buffered.data {pd : BitVec 32} {proto : BitVec 16} {xs : List (BitVec 8)} {q : List Pbuf} {tl : InTail}
    (h : Buffered ⟨pd, proto⟩ xs q tl) (inACCM : ExtAccm) (fcs : BitVec 16) (hlen : 8 + xs.length < 2 ^ 16) (c : BitVec 8) (pad : BitVec 16) :
    ∃ q' tl', PppControlRx.data ⟨pd, q, tl, proto, fcs, .pdData, false, inACCM⟩ c (some pad) =
      some ⟨pd, q', tl', proto, fcs, .pdData, false, inACCM⟩ ∧ Buffered ⟨pd, proto⟩ (xs ++ [c]) q' tl' := by
  have hsize : pbufPoolBufsize = 592 := rfl
  have hnew : ((⟨[c], 0⟩ : Pbuf).payload ≠ []) ∧ (⟨[c], 0⟩ : Pbuf).len ≤ pbufPoolBufsize :=
    ⟨List.cons_ne_nil c [], Nat.le_add_left 1 591⟩
  cases h with
  | empty => exact ⟨_, _, rfl, .head pad [c] 0 (List.cons_ne_nil _ _) (Nat.le_add_left 9 583)⟩
  | head pad' xs totLen hne hle =>
    have hlength : (PppInputHeader.bytes ⟨pd, proto⟩ pad' ++ xs).length = 8 + xs.length := List.length_append
    by_cases hfull : 8 + xs.length = pbufPoolBufsize
    · rw [data_full]
      · refine ⟨_, _, rfl, .own pad' _ _ [] _ ⟨?_, trivial⟩ ?_ hnew.1 hnew.2 ?_⟩
        · rw [pbufBytes_cons, pbufBytes_nil, List.append_nil]
          rfl
        · show 8 ≤ (PppInputHeader.bytes ⟨pd, proto⟩ pad' ++ xs).length
          omega
        · rw [pbufBytes_cons, pbufBytes_nil, List.append_nil, List.append_assoc]
          rfl
      · exact congrArg some (hlength.trans hfull)
    · rw [data_room (n := 8 + xs.length)]
      · refine ⟨_, _, rfl, ?_⟩
        have hadd : Buffered ⟨pd, proto⟩ (xs ++ [c]) [⟨PppInputHeader.bytes ⟨pd, proto⟩ pad' ++ (xs ++ [c]), totLen⟩]
            .head := by
          refine .head pad' (xs ++ [c]) totLen (List.append_ne_nil_of_right_ne_nil _ (List.cons_ne_nil _ _)) ?_
          rw [List.length_append, List.length_singleton]
          omega
        rw [← List.append_assoc] at hadd
        exact hadd
      · exact congrArg some hlength
      · exact hfull
  | own pad' xs p ps t htotals hfirst hne hle hbytes =>
    by_cases hfull : t.len = pbufPoolBufsize
    · rw [data_full]
      · obtain ⟨q, qs, hcat, htotals', hfirst', hchain⟩ := Buffered.cat htotals hfirst hbytes hlen
        refine ⟨_, .own ⟨[c], 0⟩, ?_, .own pad' _ q qs _ htotals' hfirst' hnew.1 hnew.2 ?_⟩
        · show Option.map _ (Option.map _ (pbufCat [{ t with totLen := t.len }] (p :: ps))) = _
          rw [hcat]
          rfl
        · rw [hchain, List.append_assoc]
      · exact congrArg some hfull
    · rw [data_room (n := t.len)]
      · refine ⟨_, _, rfl, .own pad' _ p ps _ htotals hfirst ?_ ?_ ?_⟩
        · exact List.append_ne_nil_of_right_ne_nil _ (List.cons_ne_nil _ _)
        · show (t.payload ++ [c]).length ≤ pbufPoolBufsize
          rw [List.length_append, List.length_singleton]
          have hlen : t.payload.length = t.len := rfl
          omega
        · rw [← List.append_assoc, hbytes, List.append_assoc]
      · rfl
      · exact hfull

theorem Holding.plain {pd : BitVec 32} {proto fcs : BitVec 16} {xs : List (BitVec 8)}
    (h : Holding inACCM pd proto fcs xs s) : s.inEscaped = false ∧ s.inACCM = inACCM := by
  obtain ⟨q, tl, rfl, -⟩ := h
  exact ⟨rfl, rfl⟩

/-- A character more. -/
theorem Holding.process {pd : BitVec 32} {proto fcs : BitVec 16} {xs : List (BitVec 8)}
    (h : Holding inACCM pd proto fcs xs s) (hlen : 8 + xs.length < 2 ^ 16) (c : BitVec 8) (pad : BitVec 16) :
    ∃ t, s.process c (some pad) = some t ∧ Holding inACCM pd proto fcs (xs ++ [c]) t := by
  obtain ⟨q, tl, rfl, hbuffered⟩ := h
  obtain ⟨q', tl', hdata, hbuffered'⟩ := hbuffered.data inACCM (xs.foldl pppFcs fcs) hlen c pad
  refine ⟨_, congrArg (Option.map _) hdata, q', tl', ?_, hbuffered'⟩
  rw [List.foldl_append]
  rfl

/-! ### The end of a frame -/

theorem append_take {A T B : List (BitVec 8)} {a b : BitVec 8} (h : A ++ T = B ++ [a, b]) (hT : 2 ≤ T.length) :
    A ++ T.take (T.length - 2) = B := by
  have hlength := congrArg List.length h
  rw [List.length_append, List.length_append, List.length_cons, List.length_singleton] at hlength
  have htake := congrArg (List.take (A.length + (T.length - 2))) h
  rw [List.take_length_add_append] at htake
  rw [htake, List.take_append_of_le_length (by omega), List.take_of_length_le (by omega)]

/-- **The check sequence is cut off**: what is left begins with the header. -/
theorem Buffered.trimFcs {pd : BitVec 32} {proto : BitVec 16} {xs : List (BitVec 8)} {a b : BitVec 8}
    {q : List Pbuf} {tl : InTail} (h : Buffered ⟨pd, proto⟩ (xs ++ [a, b]) q tl) (inACCM : ExtAccm) (fcs : BitVec 16)
    (hlen : 8 + xs.length + 2 < 2 ^ 16) :
    ∃ pad p ps, PppControlRx.trimFcs ⟨pd, q, tl, proto, fcs, .pdData, false, inACCM⟩ = some (p :: ps) ∧
      Totals (p :: ps) ∧ 8 ≤ p.len ∧ pbufBytes (p :: ps) = PppInputHeader.bytes ⟨pd, proto⟩ pad ++ xs := by
  have hxs : (xs ++ [a, b]).length = xs.length + 2 := List.length_append
  generalize hys : xs ++ [a, b] = ys at h hxs
  cases h with
  | empty => cases hxs
  | head pad ys totLen hne hle =>
    have hlength : (PppInputHeader.bytes ⟨pd, proto⟩ pad ++ ys).length = 8 + ys.length := List.length_append
    have htwo : 2 ≤ (PppInputHeader.bytes ⟨pd, proto⟩ pad ++ ys).length := by omega
    have hcut : (PppInputHeader.bytes ⟨pd, proto⟩ pad ++ ys).take
        ((PppInputHeader.bytes ⟨pd, proto⟩ pad ++ ys).length - 2) = PppInputHeader.bytes ⟨pd, proto⟩ pad ++ xs := by
      refine append_take (A := []) (a := a) (b := b) ?_ htwo
      rw [← hys, List.append_assoc]
      rfl
    refine ⟨pad, ⟨PppInputHeader.bytes ⟨pd, proto⟩ pad ++ xs, (PppInputHeader.bytes ⟨pd, proto⟩ pad ++ xs).length⟩, [],
      ?_, ⟨?_, trivial⟩, ?_, ?_⟩
    · rw [PppControlRx.trimFcs]
      dsimp only [PppControlRx.tailLen, List.head?_cons, Option.map_some, Option.bind_some, Pbuf.len]
      rw [if_pos htwo, ← hcut]
      rfl
    · rw [pbufBytes_cons, pbufBytes_nil, List.append_nil]
    · rw [Pbuf.len, List.length_append, bytes_length]
      exact Nat.le_add_right ..
    · rw [pbufBytes_cons, pbufBytes_nil, List.append_nil]
  | own pad ys p ps t htotals hfirst hne hle hbytes =>
    rw [← hys, ← List.append_assoc] at hbytes
    by_cases htwo : 2 ≤ t.len
    · have hcut : pbufBytes (p :: ps) ++ t.payload.take (t.len - 2) = PppInputHeader.bytes ⟨pd, proto⟩ pad ++ xs :=
        append_take hbytes htwo
      obtain ⟨q, qs, hcat, htotals', hfirst', hchain⟩ := Buffered.cat (t := { t with payload := t.payload.take (t.len - 2) })
        htotals hfirst hcut (by omega)
      exact ⟨pad, q, qs, (if_pos htwo).trans hcat, htotals', hfirst', hchain⟩
    · -- the check sequence is in two pbufs
      rw [List.append_assoc] at hbytes
      obtain ⟨q, qs, hcat, htotals', hfirst', hchain⟩ := Buffered.cat htotals hfirst hbytes (by rw [hys, hxs]; omega)
      have hbytesLen : (pbufBytes (q :: qs)).length = 8 + xs.length + 2 := by
        rw [hchain, List.length_append, bytes_length, hys, hxs, Nat.add_assoc]
      have htot : (pbufTotLen (q :: qs) + 2 ^ 16 - 2) % 2 ^ 16 = 8 + xs.length := by
        rw [htotals'.totLen_eq]
        omega
      obtain ⟨chain, hrealloc, htotals'', hchainNe, -, hcut⟩ := htotals'.realloc (List.cons_ne_nil _ _) (by omega)
        (8 + xs.length)
      obtain ⟨r, hr, hpayload⟩ := head?_realloc hrealloc (by
        have := htotals'.1
        rw [pbufBytes_cons, List.length_append] at this
        rw [Pbuf.len]
        omega)
      obtain ⟨rs, rfl⟩ := List.head?_eq_some_iff.1 hr
      refine ⟨pad, r, rs, ?_, htotals'', ?_, ?_⟩
      · refine (if_neg htwo).trans ?_
        show (pbufCat [{ t with totLen := t.len }] (p :: ps)).bind _ = _
        rw [hcat, Option.bind_some, htot, hrealloc]
      · rw [Pbuf.len, hpayload, List.length_take, ← Pbuf.len]
        omega
      · rw [hcut, hchain, ← List.append_assoc]
        exact List.take_left' (by rw [List.length_append, bytes_length])

/-- `pppInput` reads the header and leaves the data. -/
theorem pppInput_bytes {pih : PppInputHeader} {pad : BitVec 16} {xs : List (BitVec 8)} {p : Pbuf} {ps : List Pbuf}
    (htotals : Totals (p :: ps)) (hfirst : 8 ≤ p.len) (hbytes : pbufBytes (p :: ps) = pih.bytes pad ++ xs)
    (hlen : 8 + xs.length < 2 ^ 16) :
    ∃ nb, pppInput (p :: ps) = some (pih, nb) ∧ Totals nb ∧ pbufBytes nb = xs := by
  have hlength : (pbufBytes (p :: ps)).length = 8 + xs.length := by
    rw [hbytes, List.length_append, bytes_length]
  obtain ⟨nb, hhide, htotals', -, hnb⟩ := htotals.hide (n := 8) hfirst (by omega)
  have hheader : p.payload = pih.bytes pad ++ p.payload.drop 8 := by
    have htake : p.payload.take 8 = pih.bytes pad := by
      have h := congrArg (List.take 8) hbytes
      rw [pbufBytes_cons, List.take_append_of_le_length hfirst] at h
      exact h.trans (List.take_left' (bytes_length pih pad))
    rw [← htake, List.take_append_drop]
  have hread : PppInputHeader.ofBytes p.payload = some pih := by
    have hunit : ∀ u : BitVec 32,
        (u >>> 24).setWidth 8 ++ (u >>> 16).setWidth 8 ++ (u >>> 8).setWidth 8 ++ u.setWidth 8 = u := by
      intro u
      refine BitVec.eq_of_getLsbD_eq fun i hi ↦ ?_
      simp only [BitVec.getLsbD_append, BitVec.getLsbD_setWidth, BitVec.getLsbD_ushiftRight]
      interval_cases i <;> rfl
    have hproto : ∀ u : BitVec 16, (u >>> 8).setWidth 8 ++ u.setWidth 8 = u := by
      intro u
      refine BitVec.eq_of_getLsbD_eq fun i hi ↦ ?_
      simp only [BitVec.getLsbD_append, BitVec.getLsbD_setWidth, BitVec.getLsbD_ushiftRight]
      interval_cases i <;> rfl
    rw [hheader]
    show some (PppInputHeader.mk _ _) = _
    rw [hunit, hproto]
  refine ⟨nb, ?_, htotals', ?_⟩
  · rw [pppInput]
    dsimp only [List.headD_cons]
    rw [hread, Option.bind_some, hhide]
    rfl
  · rw [hnb, hbytes]
    exact List.drop_left' (bytes_length pih pad)

/-! ### The round trip -/

/-- **A frame**, from an idle receiver on: one packet for `pppInput`. -/
theorem feed_frame (hmaps : Maps outACCM inACCM) {hd xs : List (BitVec 8)} {proto : BitVec 16} (hhd : Header hd proto)
    (hlen : 8 + xs.length + 2 < 2 ^ 16) (pd : BitVec 32) (old : BitVec 16) {as : List (BitVec 8 × BitVec 16)}
    (has : as.map Prod.fst = frame outACCM (hd ++ xs)) :
    ∃ inp nb, feed inProc as (before inACCM pd old pppInitfcs .pdAddress) =
      some (before inACCM pd proto pppInitfcs .pdAddress, [inp]) ∧
      pppInput inp = some (⟨pd, proto⟩, nb) ∧ Totals nb ∧ pbufBytes nb = xs := by
  have hword : frame outACCM (hd ++ xs) = hd.flatMap (coded outACCM) ++
      ((xs ++ fcsBytes (fcsOf (hd ++ xs))).flatMap (coded outACCM) ++ [pppFlag]) := by
    rw [frame, List.append_assoc, List.flatMap_append, List.append_assoc]
  rw [hword] at has
  obtain ⟨as₁, as₂, rfl, hhead, hrest⟩ := List.map_eq_append_iff.1 has
  obtain ⟨as₂, last, rfl, hdata, hlast⟩ := List.map_eq_append_iff.1 hrest
  obtain ⟨⟨-, pad⟩, last, rfl, rfl, hnil⟩ := List.map_eq_cons_iff.1 hlast
  obtain rfl := List.map_eq_nil_iff.1 hnil
  have hstart : Holding inACCM pd proto (fcsOf hd) [] (before inACCM pd proto (fcsOf hd) .pdData) :=
    ⟨[], .null, rfl, .empty⟩
  obtain ⟨s, hs, q, tl, rfl, hbuffered⟩ := feeds_letters (I := Holding inACCM pd proto (fcsOf hd))
    (w := xs ++ fcsBytes (fcsOf (hd ++ xs))) (fun ys y hys s as hs has ↦ by
      have hprefix := hys.length_le
      rw [List.length_append, List.length_append] at hprefix
      have htwo : (fcsBytes (fcsOf (hd ++ xs))).length = 2 := rfl
      have hone : [y].length = 1 := rfl
      obtain ⟨pad, hfeed⟩ := feed_coded hmaps hs.plain.1 hs.plain.2 has
      obtain ⟨t, ht, hholding⟩ := hs.process (by omega) y pad
      exact ⟨t, hfeed t ht, hholding⟩) hstart hdata
  obtain ⟨pad', p, ps, htrim, htotals, hfirst, hbytes⟩ := hbuffered.trimFcs inACCM pppGoodfcs hlen
  obtain ⟨nb, hinput, htotals', hnb⟩ := pppInput_bytes htotals hfirst hbytes (by omega)
  have hgood : (xs ++ fcsBytes (fcsOf (hd ++ xs))).foldl pppFcs (fcsOf hd) = pppGoodfcs := by
    rw [fcsOf, fcsOf, ← List.foldl_append, ← List.append_assoc, List.foldl_append]
    exact foldl_fcsBytes _
  rw [hgood] at hs
  have hflag : inProc (pppFlag, pad) ⟨pd, q, tl, proto, pppGoodfcs, .pdData, false, inACCM⟩ =
      some (before inACCM pd proto pppInitfcs .pdAddress, some (p :: ps)) := by
    rw [inProc_flag hmaps.flag, PppControlRx.flag]
    dsimp only
    rw [if_neg (not_not.2 rfl), htrim]
    rfl
  refine ⟨p :: ps, nb, ?_, hinput, htotals', hnb⟩
  exact feed_append_some (feed_header hmaps hhd pd old hhead) (feed_append_some hs (feed_cons_some hflag rfl))

/-- A flag before a packet has begun makes the receiver ready for one. -/
theorem flag_first (hhead : s.inHead = []) (htail : s.inTail = .null) (hstate : s.inState ≠ .pdData) :
    s.flag = some (before s.inACCM s.pd s.inProtocol pppInitfcs .pdAddress, none) := by
  obtain ⟨pd, q, tl, proto, fcs, state, escaped, accm⟩ := s
  obtain rfl : q = [] := hhead
  obtain rfl : tl = .null := htail
  cases state with
  | pdData => exact absurd rfl hstate
  | _ => rfl

namespace Send

/-- The protocol of a packet; a buffer has it behind the address and control field. -/
def proto : Send → BitVec 16
  | ifOutput .. => pppIp
  | write _ _ s => s.getD 2 0 ++ s.getD 3 0

/-- The data of a packet. -/
def data : Send → List (BitVec 8)
  | ifOutput _ _ pb => pbufBytes pb
  | write _ _ s => s.drop 4

/-- A buffer begins with the address and control field and a protocol whose first byte is even and whose
second one is odd. -/
def Formed : Send → Prop
  | ifOutput .. => True
  | write _ _ s => ∃ p q data, s = pppAllstations :: pppUi :: p :: q :: data ∧ p &&& 1 = 0 ∧ q &&& 1 = 1

theorem Formed.chars {x : Send} (h : x.Formed) : ∃ hd, Header hd x.proto ∧ x.chars = hd ++ x.data := by
  cases x with
  | ifOutput pc env pb => exact ⟨ipHeader pc, header_ip pc, rfl⟩
  | write pc env s =>
    obtain ⟨p, q, data, rfl, hp, -⟩ := h
    exact ⟨[pppAllstations, pppUi, p, q], .full p q hp, rfl⟩

/-- The header for `pppInput`, the data and the check sequence fit into a `u16_t`. -/
def Fits (x : Send) : Prop := 8 + x.data.length + 2 ≤ 65535

end Send

/-- **The round trip.** IP packets and buffers are sent, over a link that is up, with memory, each with a map
that contains the one of the receiver, which has not begun a packet. What is written, behind a flag, is fed to
it in pieces. No assertion fails, and what it passes to `pppInput` are the protocols and the data in order. -/
theorem ppp_round_trip (sends : List Send) (s : PppControlRx) (chunks : List (List (BitVec 8 × BitVec 16)))
    (hhead : s.inHead = []) (htail : s.inTail = .null) (hstate : s.inState ≠ .pdData)
    (hmaps : ∀ x ∈ sends, Maps x.pc.outACCM s.inACCM) (hflag : escapeP s.inACCM pppFlag = true)
    (hready : ∀ x ∈ sends, x.Ready) (hformed : ∀ x ∈ sends, x.Formed) (hfits : ∀ x ∈ sends, x.Fits)
    (hsent : chunks.flatten.map Prod.fst = pppFlag :: sends.flatMap Send.bytes) :
    ∃ t inps, feedChunks inProc chunks s = some (t, inps) ∧
      List.Forall₂ (fun x inp ↦ ∃ nb, pppInput inp = some (⟨s.pd, x.proto⟩, nb) ∧ Totals nb ∧ pbufBytes nb = x.data)
        sends inps := by
  rw [feedChunks_eq]
  generalize chunks.flatten = as at hsent
  obtain ⟨⟨-, pad⟩, as, rfl, rfl, hframes⟩ := List.map_eq_cons_iff.1 hsent
  obtain ⟨t, inps, hfeed, -, hall⟩ : ∃ t inps, feed inProc as _ = some (t, inps) ∧ _ := feeds_frames
    (J := fun t ↦ ∃ old, t = before s.inACCM s.pd old pppInitfcs .pdAddress)
    (R := fun x inp ↦ ∃ nb, pppInput inp = some (⟨s.pd, x.proto⟩, nb) ∧ Totals nb ∧ pbufBytes nb = x.data)
    (fun x hx t as ht has ↦ by
      obtain ⟨old, rfl⟩ := ht
      obtain ⟨hd, hheader, hchars⟩ := (hformed x hx).chars
      rw [Send.bytes_eq (hready x hx), hchars] at has
      obtain ⟨as₁, as₂, rfl, hidle, hframe⟩ := List.map_eq_append_iff.1 has
      have hfit : 8 + x.data.length + 2 < 2 ^ 16 := Nat.lt_succ_of_le (hfits x hx)
      obtain ⟨inp, nb, hfeed, hnb⟩ := feed_frame (hmaps x hx) hheader hfit s.pd old hframe
      refine ⟨_, inp, ?_, ⟨x.proto, rfl⟩, nb, hnb⟩
      rw [idleFlag] at hidle
      split_ifs at hidle
      · obtain ⟨⟨-, pad⟩, as₁, rfl, rfl, hnil⟩ := List.map_eq_cons_iff.1 hidle
        obtain rfl := List.map_eq_nil_iff.1 hnil
        exact feed_cons_some ((inProc_flag (s := before s.inACCM s.pd old pppInitfcs .pdAddress) hflag pad).trans (flag_first rfl rfl (show PppDevStates.pdAddress ≠ .pdData by decide))) hfeed
      · obtain rfl := List.map_eq_nil_iff.1 hidle
        exact hfeed) ⟨s.inProtocol, rfl⟩ hframes
  exact ⟨t, inps, feed_cons_some ((inProc_flag hflag pad).trans (flag_first hhead htail hstate)) hfeed, hall⟩

/-- The map with the control codes, the escape and the flag. -/
def exampleAccm : ExtAccm := fun i ↦ if i < 4 then 0xff else if i = 15 then 0x60 else 0

/-- The map with the escape and the flag alone. -/
def exampleInAccm : ExtAccm := fun i ↦ if i = 15 then 0x60 else 0

/-- Two packets, one of them over an idle line; the first ends with a flag among its data. -/
def exampleSends : List Send :=
  [.ifOutput ⟨true, false, false, 0, exampleAccm⟩ ⟨200, 200, true, true, fun _ ↦ true⟩ [⟨[0x45], 2⟩, ⟨[0x7e], 1⟩],
    .write ⟨true, true, true, 200, exampleAccm⟩ ⟨201, 201, true, true, fun _ ↦ true⟩ [0xff, 0x03, 0xc0, 0x21, 0x01]]

/-- The bytes for them in two pieces, to a receiver with a smaller map. -/
theorem ppp_round_trip_example :
    ∃ t inps, feedChunks inProc
        [((pppFlag :: exampleSends.flatMap Send.bytes).take 3).map (·, 0),
          ((pppFlag :: exampleSends.flatMap Send.bytes).drop 3).map (·, 0)]
        ⟨0, [], .null, 0, 0, .pdIdle, false, exampleInAccm⟩ = some (t, inps) ∧
      List.Forall₂ (fun x inp ↦ ∃ nb, pppInput inp = some (⟨0, x.1⟩, nb) ∧ Totals nb ∧ pbufBytes nb = x.2)
        [(0x21, [0x45, 0x7e]), (0xc021, [0x01])] inps := by
  have hmaps : Maps exampleAccm exampleInAccm :=
    ⟨by decide, by decide, by decide, by decide⟩
  obtain ⟨t, inps, hfeed, hall⟩ := ppp_round_trip exampleSends
    ⟨0, [], .null, 0, 0, .pdIdle, false, exampleInAccm⟩
    [((pppFlag :: exampleSends.flatMap Send.bytes).take 3).map (·, 0),
      ((pppFlag :: exampleSends.flatMap Send.bytes).drop 3).map (·, 0)]
    rfl rfl (by decide) (by simp [exampleSends, Send.pc, hmaps]) (by decide)
    (by simp [exampleSends, Send.Ready]) (by simp [exampleSends, Send.Formed, pppAllstations, pppUi])
    (by simp [exampleSends, Send.Fits, Send.data])
    (by rw [List.flatten_cons, List.flatten_cons, List.flatten_nil, List.append_nil, ← List.map_append,
          List.take_append_drop, List.map_map]; exact List.map_id _)
  have hpairs : exampleSends.map (fun x ↦ (x.proto, x.data)) = [(0x21, [0x45, 0x7e]), (0xc021, [0x01])] := rfl
  rw [← hpairs]
  exact ⟨t, inps, hfeed, List.forall₂_map_left_iff.2 hall⟩

end Lwip.Netif.Ppp
