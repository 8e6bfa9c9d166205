import AndroidKernel.Sipc.Lengths
import AndroidKernel.Sipc.Sending

/-!
# What `sipc_read` does with what is in the rings

The rings are read one after the other, up to the first one that is not read to its end. What
the readers come to is told from the bytes that the modem has written: one frame after the
other, until a length is not as it should be.

The mask by which a ring is acknowledged replaces that of the ring before. So of the rings for
which the modem has asked for an acknowledgement only the last one gets it.
-/

namespace AndroidKernel.Sipc

open List

/-! ## The frames in a ring -/

/-- The size of a header. -/
def IpcIdx.hdrLen : IpcIdx → Nat
  | .fmt => 3
  | .raw | .rfs => 6

/-- The frames that a reader comes to, and whether it gets to the end of the ring. -/
structure Scanned where
  frames : List Incoming
  whole : Bool

/-- The frames in the bytes that a reader finds. -/
def scan (pdpDevs : Nat → Bool) (idx : IpcIdx) : Nat → Int → List Byte → Scanned
  | 0, _, _ => ⟨[], true⟩
  | fuel + 1, inbuf, bytes =>
    if inbuf ≤ 0 then ⟨[], true⟩
    else if bytes.length < 1 + idx.hdrLen ∨ bytes.head? ≠ some hdlcStart then ⟨[], false⟩
    else
      let fr := Incoming.ofHeader pdpDevs (bytes.take (1 + idx.hdrLen)).tail
        (bytes.drop (1 + idx.hdrLen)) idx
      match fr.next with
      | none => ⟨[fr], false⟩
      | some rest =>
        let more := scan pdpDevs idx fuel (inbuf - ((bytes.length : Int) - rest.length)) rest
        ⟨fr :: more.frames, more.whole⟩

variable {idx : IpcIdx} {pdpDevs : Nat → Bool} {fuel : Nat} {inbuf : Int} {bytes : List Byte}
  {fr : Incoming} {si : Si} {rb : Ringbuf} {s : Scanned} {out : Read}

theorem scan_of_nonpos (h : inbuf ≤ 0) (bytes : List Byte) :
    scan pdpDevs idx fuel inbuf bytes = ⟨[], true⟩ := by
  cases fuel with
  | zero => rfl
  | succ fuel =>
    unfold scan
    rw [if_pos h]

theorem scan_frames_nil (fuel : Nat) (inbuf : Int) :
    (scan pdpDevs idx fuel inbuf []).frames = [] := by
  cases fuel with
  | zero => rfl
  | succ fuel =>
    unfold scan
    split
    next => rfl
    next => rw [if_pos (.inl (by rw [length_nil]; omega))]

theorem Incoming.fmt_len_lt (hdr : List Byte) : (Bytes.value (hdr.take 2) : Int) - 3 < 2 ^ 16 := by
  have hvalue := Bytes.value_lt (hdr.take 2)
  have hpow : 256 ^ (hdr.take 2).length ≤ 256 ^ 2 :=
    Nat.pow_le_pow_right (by decide) (length_take_le _ _)
  omega

theorem Incoming.len_ofHeader_lt (pdpDevs : Nat → Bool) (hdr bytes : List Byte) (idx : IpcIdx) :
    (Incoming.ofHeader pdpDevs hdr bytes idx).len < 2 ^ 31 := by
  cases idx with
  | fmt => exact (Incoming.fmt_len_lt hdr).trans (by decide)
  | raw | rfs => exact long_lt _

/-- Behind a frame that is not read whole there is nothing, and a packet that is dropped and is
longer than what there is ends the ring. -/
theorem scan_mem (h : fr ∈ (scan pdpDevs idx fuel inbuf bytes).frames)
    (hinbuf : inbuf ≤ bytes.length) :
    (fr.next = none → (scan pdpDevs idx fuel inbuf bytes).whole = false) ∧
      (fr.kind = .dropped → fr.Overlong → (scan pdpDevs idx fuel inbuf bytes).whole = true) := by
  induction fuel generalizing inbuf bytes with
  | zero => cases h
  | succ fuel ih =>
    unfold scan at h ⊢
    split at h
    next => cases h
    next hpos =>
      rw [if_neg hpos]
      split at h
      next => cases h
      next hstart =>
        rw [if_neg hstart]
        have hlt := Incoming.len_ofHeader_lt pdpDevs (bytes.take (1 + idx.hdrLen)).tail
          (bytes.drop (1 + idx.hdrLen)) idx
        dsimp only at h ⊢
        generalize Incoming.ofHeader pdpDevs (bytes.take (1 + idx.hdrLen)).tail
          (bytes.drop (1 + idx.hdrLen)) idx = fr₀ at h hlt ⊢
        split at h
        next hnone =>
          cases mem_singleton.mp h
          refine ⟨fun _ => rfl, fun hkind => ?_⟩
          rw [Incoming.next, if_pos hkind] at hnone
          cases hnone
        next rest hrest =>
          rcases mem_cons.mp h with rfl | h
          · refine ⟨fun hnone => absurd (hnone.symm.trans hrest) (Option.some_ne_none rest).symm,
              fun hkind hlong => ?_⟩
            rw [Incoming.next, if_pos hkind] at hrest
            cases hrest
            have hnil : fr.bytes.drop (ulong (fr.len + 1)) = [] := by
              unfold Incoming.Overlong at hlong
              refine drop_of_length_le ?_
              unfold ulong
              omega
            dsimp only
            rw [hnil, length_nil, scan_of_nonpos (by omega)]
          · exact ih h (by omega)

/-! ## The readers -/

theorem Si.Plenty.mono {m n : Nat} (h : si.Plenty n) (hle : m ≤ n) : si.Plenty m :=
  ⟨h.allocs, by have := h.blocks; omega⟩

/-- What a reader does. -/
inductive ReadOk (si : Si) (s : Scanned) (out : Read) : Prop
  | whole (hwhole : s.whole = true) (hlen : ∀ fr ∈ s.frames, ¬fr.Bad) (hret : out.ret = .ok 0)
      (hfrag : out.si.frag.Ok) (hdevs : out.si.pdpDevs = si.pdpDevs)
      (hmem : ∀ n, si.Plenty (n + s.frames.length) → out.si.Plenty n)
  | rejected (hwhole : s.whole = false) (hlen : ∀ fr ∈ s.frames, ¬fr.Bad)
      (hret : out.ret = .ok ebadmsg) (hfrag : out.si.frag.Ok)
  | fault {e : Fault} (hbad : ∃ fr ∈ s.frames, fr.Bad) (hret : out.ret = .error e)
  | noMemory (hmem : ¬si.Plenty s.frames.length) (hret : out.ret = .ok enomem)
      (hfrag : out.si.frag.Ok)
  | negative (h : ∃ fr ∈ s.frames, fr.Negative)

/-- One frame has been read before. -/
theorem ReadOk.cons {si' : Si} (h : ReadOk si' s out) (hfr : ¬fr.Bad) (hafter : si.After si') :
    ReadOk si ⟨fr :: s.frames, s.whole⟩ out := by
  cases h with
  | whole hwhole hlen hret hfrag hdevs hmem =>
    exact .whole hwhole (forall_mem_cons.mpr ⟨hfr, hlen⟩) hret hfrag (hdevs.trans hafter.devs)
      fun n hn => hmem n (hafter.plenty _ hn)
  | rejected hwhole hlen hret hfrag =>
    exact .rejected hwhole (forall_mem_cons.mpr ⟨hfr, hlen⟩) hret hfrag
  | fault hbad hret =>
    obtain ⟨x, hx, hbad⟩ := hbad
    exact .fault ⟨x, mem_cons_of_mem fr hx, hbad⟩ hret
  | noMemory hmem hret hfrag => exact .noMemory (fun hn => hmem (hafter.plenty _ hn)) hret hfrag
  | negative h =>
    obtain ⟨x, hx, hneg⟩ := h
    exact .negative ⟨x, mem_cons_of_mem fr hx, hneg⟩

theorem readFrames_ok {readFrame : Si → Ringbuf → List Byte → Read}
    (hframe : ∀ si rb hdr, rb.tail < idx.size → si.frag.Ok →
      FrameOk idx si (.ofHeader si.pdpDevs hdr (rb.contents idx) idx) (readFrame si rb hdr))
    (fuel : Nat) (inbuf : Int) (hsees : Sees idx (1 + idx.hdrLen) rb bytes) (h : si.frag.Ok) :
    ReadOk si (scan si.pdpDevs idx fuel inbuf bytes)
      (readFrames idx idx.hdrLen readFrame fuel si rb inbuf) := by
  induction fuel generalizing si rb inbuf bytes with
  | zero => exact .whole rfl nofun rfl h rfl fun _ hn => hn
  | succ fuel ih =>
    unfold scan readFrames
    split
    next => exact .whole rfl nofun rfl h rfl fun _ hn => hn
    next hpos =>
      have hstart : ((rb.read idx (1 + idx.hdrLen)).2.length < 1 + idx.hdrLen ∨
          (rb.read idx (1 + idx.hdrLen)).2.head? ≠ some hdlcStart) ↔
          (bytes.length < 1 + idx.hdrLen ∨ bytes.head? ≠ some hdlcStart) := by
        rw [hsees.read, length_take, head?_take, if_neg (by omega)]
        exact or_congr_left (by omega)
      dsimp only
      rw [if_congr hstart rfl rfl]
      split
      next => exact .rejected rfl nofun rfl h
      next hgood =>
        have hlen : 1 + idx.hdrLen ≤ bytes.length := by
          rw [not_or] at hgood
          omega
        obtain ⟨htail, hrest⟩ := hsees.rest hlen
        have hout := hframe si (rb.read idx (1 + idx.hdrLen)).1
          (rb.read idx (1 + idx.hdrLen)).2.tail htail h
        rw [hrest, hsees.read] at hout
        rw [hsees.read]
        have hbytes : ((bytes.drop (1 + idx.hdrLen)).length : Int) =
            bytes.length - (1 + idx.hdrLen) := by
          rw [length_drop]
          omega
        have hfr : (Incoming.ofHeader si.pdpDevs (bytes.take (1 + idx.hdrLen)).tail
            (bytes.drop (1 + idx.hdrLen)) idx).bytes = bytes.drop (1 + idx.hdrLen) := by
          cases idx <;> rfl
        rw [← hfr] at hbytes
        generalize Incoming.ofHeader si.pdpDevs (bytes.take (1 + idx.hdrLen)).tail
          (bytes.drop (1 + idx.hdrLen)) idx = fr at hout hbytes ⊢
        generalize readFrame si (rb.read idx (1 + idx.hdrLen)).1
          (bytes.take (1 + idx.hdrLen)).tail = out at hout ⊢
        have hbad (hbad : fr.Bad) : fr.next = none :=
          Option.eq_none_iff_forall_ne_some.mpr fun rest hnext =>
            (Incoming.not_bad_of_next hnext).1 hbad
        cases hout with
        | @whole rest hnext hret htail hrest hafter =>
          obtain ⟨hnotBad, hle⟩ := Incoming.not_bad_of_next hnext
          rw [hnext, hret]
          dsimp only
          rw [if_neg (by omega), ← hafter.devs]
          rw [show inbuf - ((bytes.length : Int) - rest.length) =
            inbuf - (1 + idx.hdrLen) - (fr.bytes.length - rest.length) by omega]
          have hsees := sees_contents htail (1 + idx.hdrLen)
          rw [hrest] at hsees
          exact (ih _ hsees hafter.frag).cons hnotBad hafter
        | rejected hnext hlen hret h =>
          rw [hnext, hret]
          exact .rejected rfl (forall_mem_singleton.mpr fun hbad => hbad.2 hlen) rfl h
        | fault hisBad hret =>
          rw [hbad hisBad, hret]
          exact .fault ⟨fr, mem_singleton_self fr, hisBad⟩ rfl
        | noMemory hmem hret h =>
          rw [hret]
          refine .noMemory (fun hplenty => hmem (hplenty.mono ?_)) rfl h
          split <;> exact Nat.succ_le_succ (Nat.zero_le _)
        | negative h =>
          rw [hbad h.bad]
          exact .negative ⟨fr, mem_singleton_self fr, h⟩

theorem readFmtFrame_ok (hdr : List Byte) (h : rb.tail < IpcIdx.fmt.size) (hsi : si.frag.Ok) :
    FrameOk .fmt si (.ofHeader si.pdpDevs hdr (rb.contents .fmt) .fmt)
      (readFmtFrame si rb hdr) := by
  have hlt := Incoming.fmt_len_lt hdr
  unfold readFmtFrame Incoming.ofHeader
  dsimp only
  split
  next => exact readFmtLast_ok h hsi (by omega) _
  next => exact readFmtFrag_ok h hsi (by omega) (by omega) _

theorem readRawFrame_ok (hdr : List Byte) (h : rb.tail < IpcIdx.raw.size) (hsi : si.frag.Ok) :
    FrameOk .raw si (.ofHeader si.pdpDevs hdr (rb.contents .raw) .raw)
      (readRawFrame si rb hdr) := by
  unfold readRawFrame Incoming.ofHeader
  dsimp only
  split
  next => exact readPdp_ok h (long_lt _) hsi _
  next => exact readPn_ok h (long_lt _) hsi _

theorem readRfsFrame_ok (hdr : List Byte) (h : rb.tail < IpcIdx.rfs.size) (hsi : si.frag.Ok) :
    FrameOk .rfs si (.ofHeader si.pdpDevs hdr (rb.contents .rfs) .rfs)
      (readRfsFrame si rb hdr) := by
  refine readRfsData_ok h hsi ?_ (long_lt _) hdr
  unfold long
  omega

namespace Rx

variable {rx rx' : Rx} {mailbox : Nat} {rings : List IpcIdx}

/-! ## What is in the rings before a call -/

/-- What is in a ring. -/
def scan (rx : Rx) (idx : IpcIdx) : Scanned :=
  Sipc.scan rx.si.pdpDevs idx ((rx.ring idx).count idx) ((rx.ring idx).count idx)
    ((rx.ring idx).stream idx (1 + idx.hdrLen))

/-- The rings that have data, up to the first one that is not read to its end. -/
def visitedFrom (rx : Rx) : List IpcIdx → List IpcIdx
  | [] => []
  | idx :: rest =>
    if (rx.ring idx).count idx = 0 then rx.visitedFrom rest
    else idx :: if (rx.scan idx).whole then rx.visitedFrom rest else []

def visited (rx : Rx) : List IpcIdx := rx.visitedFrom [.fmt, .raw, .rfs]

def framesOf (rx : Rx) (rings : List IpcIdx) : List Incoming :=
  rings.flatMap fun idx => (rx.scan idx).frames

/-- The frames that a call of `sipc_read` comes to. -/
def frames (rx : Rx) : List Incoming := rx.framesOf rx.visited

theorem framesOf_cons (idx : IpcIdx) (rings : List IpcIdx) :
    rx.framesOf (idx :: rings) = (rx.scan idx).frames ++ rx.framesOf rings :=
  flatMap_cons

theorem framesOf_congr (h : ∀ j ∈ rings, rx'.scan j = rx.scan j) :
    rx'.framesOf rings = rx.framesOf rings :=
  flatMap_congr fun j hj => by rw [h j hj]

theorem mem_of_mem_visitedFrom {idx : IpcIdx} (h : idx ∈ rx.visitedFrom rings) : idx ∈ rings := by
  induction rings with
  | nil => cases h
  | cons ring rest ih =>
    unfold visitedFrom at h
    split at h
    next => exact mem_cons_of_mem _ (ih h)
    next =>
      rcases mem_cons.mp h with rfl | h
      · exact mem_cons_self
      · split at h
        next => exact mem_cons_of_mem _ (ih h)
        next => cases h

/-- Reading a ring changes nothing in the others. -/
theorem visitedFrom_put (h : idx ∉ rings) (hdevs : si.pdpDevs = rx.si.pdpDevs) :
    (rx.put idx rb si).visitedFrom rings = rx.visitedFrom rings ∧
      ∀ j ∈ rings, (rx.put idx rb si).scan j = rx.scan j := by
  induction rings with
  | nil => exact ⟨rfl, nofun⟩
  | cons ring rest ih =>
    obtain ⟨hne, hrest⟩ := ne_and_not_mem_of_not_mem_cons h
    have hring : (rx.put idx rb si).ring ring = rx.ring ring :=
      Function.update_of_ne (Ne.symm hne) ..
    have hscan : (rx.put idx rb si).scan ring = rx.scan ring := by
      unfold scan
      rw [hring]
      exact congrArg (Sipc.scan · ring _ _ _) hdevs
    obtain ⟨hvisited, hscans⟩ := ih hrest
    refine ⟨?_, forall_mem_cons.mpr ⟨hscan, hscans⟩⟩
    unfold visitedFrom
    rw [hring, hscan, hvisited]

/-! ## The loop -/

theorem rbRead_ok (h : rx.si.frag.Ok) (idx : IpcIdx) :
    ReadOk rx.si (rx.scan idx) (rbRead rx.si ((rx.ring idx).count idx) (rx.ring idx) idx) := by
  cases idx with
  | fmt =>
    exact readFrames_ok (fun _ _ hdr => readFmtFrame_ok hdr) _ _ (sees_stream .fmt 3 _) h
  | raw =>
    exact readFrames_ok (fun _ _ hdr => readRawFrame_ok hdr) _ _ (sees_stream .raw 6 _) h
  | rfs =>
    exact readFrames_ok (fun _ _ hdr => readRfsFrame_ok hdr) _ _ (sees_stream .rfs 6 _) h

/-- The reader has seen the end of the ring. -/
def Empty (rx : Rx) (idx : IpcIdx) : Prop := (rx.ring idx).tail = (rx.ring idx).head
  deriving Decidable

/-- What the loop of `sipc_read` does, if these are the rings that have data. -/
structure LoopOk (rx : Rx) (rings : List IpcIdx) (l : Loop) : Prop where
  frag : ∀ r, l.ret = .ok r → l.rx.si.frag.Ok
  fault : ∀ e, l.ret = .error e → ∃ fr ∈ rx.framesOf rings, fr.Bad
  reads : ∀ x ∈ l.reads, x.1 ∈ rings ∧
    (x.2 = 0 ∧ (rx.scan x.1).whole = true ∨
      x.2 = ebadmsg ∧ (rx.scan x.1).whole = false ∧ l.rx.Empty x.1 ∨ x.2 = enomem)
  plenty : rx.si.Plenty (rx.framesOf rings).length → (∃ e, l.ret = .error e) ∨
    (∀ fr ∈ rx.framesOf rings, ¬fr.Bad) ∧
      ∀ idx ∈ rings, ∃ r, r ≠ enomem ∧ (idx, r) ∈ l.reads

/-- One ring has been read to its end before. -/
theorem LoopOk.cons {l : Loop} (h : LoopOk rx' rings l)
    (hscan : ∀ j ∈ rings, rx'.scan j = rx.scan j) (hwhole : (rx.scan idx).whole = true)
    (hlen : ∀ fr ∈ (rx.scan idx).frames, ¬fr.Bad)
    (hmem : ∀ n, rx.si.Plenty (n + (rx.scan idx).frames.length) → rx'.si.Plenty n) :
    LoopOk rx (idx :: rings) { l with reads := (idx, 0) :: l.reads } := by
  have hframes : rx.framesOf (idx :: rings) = (rx.scan idx).frames ++ rx'.framesOf rings := by
    rw [framesOf_cons, framesOf_congr hscan]
  refine ⟨h.frag, fun e he => ?_, forall_mem_cons.mpr ⟨⟨mem_cons_self, .inl ⟨rfl, hwhole⟩⟩,
    fun x hx => ?_⟩, fun hplenty => ?_⟩
  · obtain ⟨fr, hfr, hbad⟩ := h.fault e he
    exact ⟨fr, hframes ▸ mem_append_right _ hfr, hbad⟩
  · obtain ⟨hmem, hx⟩ := h.reads x hx
    exact ⟨mem_cons_of_mem _ hmem, hscan x.1 hmem ▸ hx⟩
  · rw [hframes] at hplenty ⊢
    rw [length_append, Nat.add_comm] at hplenty
    refine (h.plenty (hmem _ hplenty)).imp_right fun hrest => ⟨forall_mem_append.mpr
      ⟨hlen, hrest.1⟩, forall_mem_cons.mpr ⟨⟨0, by decide, mem_cons_self⟩, fun j hj => ?_⟩⟩
    obtain ⟨r, hne, hr⟩ := hrest.2 j hj
    exact ⟨r, hne, mem_cons_of_mem _ hr⟩

theorem readRings_ok (h : rx.si.frag.Ok) (hnodup : rings.Nodup)
    (hneg : ∀ fr ∈ rx.framesOf (rx.visitedFrom rings), ¬fr.Negative) (mailbox res : Nat) (r : Int) :
    LoopOk rx (rx.visitedFrom rings) (readRings mailbox rings rx res r) := by
  induction rings generalizing rx res r with
  | nil => exact ⟨fun _ _ => h, nofun, nofun, fun _ => .inr ⟨nofun, nofun⟩⟩
  | cons idx rest ih =>
    obtain ⟨hnotMem, hnodup⟩ := nodup_cons.mp hnodup
    unfold visitedFrom at hneg ⊢
    unfold readRings
    dsimp only
    by_cases hempty : (rx.ring idx).count idx = 0
    · rw [if_pos hempty] at hneg ⊢
      rw [if_pos (show circCnt (rx.ring idx).head (rx.ring idx).tail idx.size = 0 from hempty)]
      exact ih h hnodup hneg res r
    rw [if_neg hempty] at hneg ⊢
    rw [if_neg (show ¬circCnt (rx.ring idx).head (rx.ring idx).tail idx.size = 0 from hempty)]
    have hout := rbRead_ok h idx
    unfold Ringbuf.count at hout
    generalize rbRead rx.si (circCnt (rx.ring idx).head (rx.ring idx).tail idx.size)
      (rx.ring idx) idx = out at hout
    rw [framesOf_cons] at hneg
    have hin {fr : Incoming} {more : List IpcIdx} (hfr : fr ∈ (rx.scan idx).frames) :
        fr ∈ rx.framesOf (idx :: more) := by
      rw [framesOf_cons]
      exact mem_append_left _ hfr
    cases hout with
    | whole hwhole hlen hret hfrag hdevs hmem =>
      obtain ⟨hvisited, hscans⟩ := @visitedFrom_put idx out.si out.rb rx rest hnotMem hdevs
      rw [hret, if_pos hwhole]
      rw [if_pos hwhole] at hneg
      rw [← hvisited] at hneg ⊢
      have hscans : ∀ j ∈ (rx.put idx out.rb out.si).visitedFrom rest,
          (rx.put idx out.rb out.si).scan j = rx.scan j :=
        fun j hj => hscans j (mem_of_mem_visitedFrom hj)
      refine LoopOk.cons (ih hfrag hnodup ?_ _ 0) hscans hwhole hlen hmem
      rw [framesOf_congr hscans]
      exact fun fr hfr => hneg fr (mem_append_right _ hfr)
    | rejected hwhole hlen hret hfrag =>
      have hstop : ¬(rx.scan idx).whole = true := by
        rw [hwhole]
        exact Bool.false_ne_true
      rw [hret, if_neg hstop]
      refine ⟨fun _ _ => hfrag, nofun, forall_mem_singleton.mpr ⟨mem_singleton_self idx,
        .inr (.inl ⟨rfl, hwhole, ?_⟩)⟩, fun _ => .inr ⟨?_, forall_mem_singleton.mpr
        ⟨ebadmsg, by decide, mem_singleton_self _⟩⟩⟩
      · -- `purge_buffer`
        show ((Function.update rx.ring idx (purgeBuffer out.rb)) idx).tail =
          ((Function.update rx.ring idx (purgeBuffer out.rb)) idx).head
        rw [Function.update_self]
        rfl
      · rw [framesOf_cons]
        exact forall_mem_append.mpr ⟨hlen, nofun⟩
    | fault hbad hret =>
      obtain ⟨fr, hfr, hbad⟩ := hbad
      rw [hret]
      exact ⟨nofun, fun _ _ => ⟨fr, hin hfr, hbad⟩, nofun, fun _ => .inl ⟨_, rfl⟩⟩
    | noMemory hmem hret hfrag =>
      rw [hret]
      refine ⟨fun _ _ => hfrag, nofun, forall_mem_singleton.mpr ⟨mem_cons_self, .inr (.inr rfl)⟩,
        fun hplenty => absurd (hplenty.mono ?_) hmem⟩
      rw [framesOf_cons, length_append]
      exact Nat.le_add_right ..
    | negative hneg' =>
      obtain ⟨fr, hfr, hfrNeg⟩ := hneg'
      exact absurd hfrNeg (hneg fr (mem_append_left _ hfr))

/-- What `sipc_read` takes from its loop. -/
theorem sipcRead_loop (rx : Rx) (mailbox : Nat) :
    (rx.sipcRead 0 mailbox).1 = (readRings mailbox [.fmt, .raw, .rfs] rx 0 0).rx ∧
      (rx.sipcRead 0 mailbox).2.ret = (readRings mailbox [.fmt, .raw, .rfs] rx 0 0).ret ∧
      (rx.sipcRead 0 mailbox).2.reads = (readRings mailbox [.fmt, .raw, .rfs] rx 0 0).reads := by
  unfold sipcRead
  rw [if_neg (by decide)]
  dsimp only
  split
  next h => exact ⟨rfl, h.symm, rfl⟩
  next h => exact ⟨rfl, h.symm, rfl⟩

theorem sipcRead_ok (h : rx.si.frag.Ok) (hneg : ∀ fr ∈ rx.frames, ¬fr.Negative) (mailbox : Nat) :
    LoopOk rx rx.visited ⟨(rx.sipcRead 0 mailbox).1, 0, (rx.sipcRead 0 mailbox).2.reads,
      (rx.sipcRead 0 mailbox).2.ret⟩ := by
  have hok := readRings_ok h (by decide) hneg mailbox 0 0
  obtain ⟨hrx, hret, hreads⟩ := sipcRead_loop rx mailbox
  rw [hrx, hret, hreads]
  exact ⟨hok.frag, hok.fault, hok.reads, hok.plenty⟩

/-- A call ends without a fault if no length is bad. -/
theorem sipcRead_returns (h : rx.si.frag.Ok) (hlen : ∀ fr ∈ rx.frames, ¬fr.Bad) (mailbox : Nat) :
    ∃ r, (rx.sipcRead 0 mailbox).2.ret = .ok r := by
  have hok := sipcRead_ok h (fun fr hfr hneg => hlen fr hfr hneg.bad) mailbox
  cases hret : (rx.sipcRead 0 mailbox).2.ret with
  | ok r => exact ⟨r, rfl⟩
  | error e =>
    obtain ⟨fr, hfr, hbad⟩ := hok.fault e hret
    exact absurd hbad (hlen fr hfr)

/-! ## Runs -/

/-- What happens to the receiving side: the modem writes what it likes into the shared
memory, devices come and go, memory is or is not there; then the calls. -/
inductive Op where
  | environment (ring : IpcIdx → Ringbuf) (pdpDevs : Nat → Bool) (allocs : List Bool)
  | read (auth : Int) (mailbox : Nat)
  | rx

/-- A step; none leads on from a fault. -/
def step (rx : Rx) : Op → Option Rx
  | .environment ring pdpDevs allocs =>
    some ⟨ring, { rx.si with pdpDevs := pdpDevs, allocs := allocs }⟩
  | .read auth mailbox =>
    match (rx.sipcRead auth mailbox).2.ret with
    | .ok _ => some (rx.sipcRead auth mailbox).1
    | .error _ => none
  | .rx => some rx.sipcRx.1

/-- Rings in which the modem has written the given bytes. -/
def ofBytes (bytes : IpcIdx → List Byte) : Rx where
  ring idx := ⟨fun n => (bytes idx).getD n 0, (bytes idx).length, 0⟩
  si := .init

/-- Nothing has been received. -/
def init : Rx := ofBytes fun _ => []

/-- No fragment that is going to be read declares one byte less than its header. -/
def KeepsLengths (rx : Rx) : Op → Prop
  | .read auth _ => auth = 0 → ∀ fr ∈ rx.frames, ¬fr.Negative
  | _ => True

instance (rx : Rx) (op : Op) : Decidable (rx.KeepsLengths op) := by
  cases op <;> unfold KeepsLengths <;> infer_instance

theorem step_frag {op : Op} (h : rx.si.frag.Ok) (hok : rx.KeepsLengths op)
    (hs : rx.step op = some rx') : rx'.si.frag.Ok := by
  cases op with
  | environment | rx =>
    cases hs
    exact h
  | read auth mailbox =>
    unfold step at hs
    dsimp only at hs
    split at hs
    next r hr =>
      cases hs
      by_cases hauth : auth = 0
      · subst hauth
        exact (sipcRead_ok h (hok rfl) mailbox).frag r hr
      · unfold sipcRead
        rwa [if_pos hauth]
    next => cases hs

theorem frag_ok (h : Reached step KeepsLengths init rx) : rx.si.frag.Ok :=
  h.invariant (P := fun rx => rx.si.frag.Ok) 
    ⟨nodup_nil, by simp [init, ofBytes, Si.init], nofun, by decide⟩
    fun _ _ _ hok hkeeps hs => step_frag hok hkeeps hs

theorem scan_mem (idx : IpcIdx) (h : fr ∈ (rx.scan idx).frames) :
    (fr.next = none → (rx.scan idx).whole = false) ∧
      (fr.kind = .dropped → fr.Overlong → (rx.scan idx).whole = true) := by
  unfold scan at h ⊢
  rcases (rx.ring idx).count_le_length_stream idx (1 + idx.hdrLen) with hnil | hle
  · rw [hnil, scan_frames_nil] at h
    cases h
  · exact Sipc.scan_mem h (Int.ofNat_le.mpr hle)

/-! ## Lengths -/

/-- A call ends without a fault, and what is too long is rejected and purged. -/
structure Handles (rx : Rx) (mailbox : Nat) : Prop where
  returns : ∃ r, (rx.sipcRead 0 mailbox).2.ret = .ok r
  rejects : ∀ idx ∈ rx.visited, ∀ fr ∈ (rx.scan idx).frames, fr.Overlong →
    (idx, ebadmsg) ∈ (rx.sipcRead 0 mailbox).2.reads ∧ (rx.sipcRead 0 mailbox).1.Empty idx

/-- A call ends without a fault if no length is bad. If there is enough memory, it also rejects and
purges what is too long, if and only if all lengths are good. -/
theorem sipcRead_lengths_iff (h : Reached step KeepsLengths init rx)
    (hneg : ∀ fr ∈ rx.frames, ¬fr.Negative) (mailbox : Nat) :
    ((∀ fr ∈ rx.frames, ¬fr.Bad) → ∃ r, (rx.sipcRead 0 mailbox).2.ret = .ok r) ∧
      (rx.si.Plenty rx.frames.length → (rx.Handles mailbox ↔ ∀ fr ∈ rx.frames, fr.Good)) := by
  have hok := sipcRead_ok (frag_ok h) hneg mailbox
  refine ⟨fun hlen => sipcRead_returns (frag_ok h) hlen mailbox,
    fun hplenty => ⟨fun hhandles fr hfr => ?_, fun hgood => ?_⟩⟩
  · obtain ⟨⟨r, hret⟩, hrejects⟩ := hhandles
    refine ⟨?_, fun hkind hlong => ?_⟩
    · rcases hok.plenty hplenty with ⟨e, he⟩ | ⟨hlen, -⟩
      · cases hret.symm.trans he
      · exact hlen fr hfr
    · -- what is for a device that is not there is dropped, and the reader goes on
      obtain ⟨idx, hidx, hfr⟩ := mem_flatMap.mp hfr
      have hwhole := (scan_mem idx hfr).2 hkind hlong
      rcases (hok.reads _ (hrejects idx hidx fr hfr hlong).1).2 with ⟨h0, -⟩ | ⟨-, hnot, -⟩ | hno
      · cases h0
      · cases hnot.symm.trans hwhole
      · cases hno
  · refine ⟨sipcRead_returns (frag_ok h) (fun fr hfr => (hgood fr hfr).1) mailbox,
      fun idx hidx fr hfr hlong => ?_⟩
    have hwhole := (scan_mem idx hfr).1
      (Incoming.next_of_overlong (hgood fr (mem_flatMap.mpr ⟨idx, hidx, hfr⟩)) hlong)
    rcases hok.plenty hplenty with ⟨e, he⟩ | ⟨-, hreads⟩
    · obtain ⟨fr, hfr, hbad⟩ := hok.fault e he
      exact absurd hbad (hgood fr hfr).1
    · obtain ⟨r, hne, hr⟩ := hreads idx hidx
      rcases (hok.reads _ hr).2 with ⟨-, hnot⟩ | ⟨hret, -, hempty⟩ | hno
      · cases hnot.symm.trans hwhole
      · exact ⟨hret ▸ hr, hempty⟩
      · exact absurd hno hne

/-- The modem has written something into the empty rings. -/
def written (bytes : IpcIdx → List Byte) (allocs : List Bool) : Rx :=
  ⟨(ofBytes bytes).ring, { Si.init with allocs := allocs }⟩

theorem written_reached (bytes : IpcIdx → List Byte) (allocs : List Bool) :
    Reached step KeepsLengths init (written bytes allocs) :=
  .step .init (show init.KeepsLengths (.environment ..) from trivial)
    (show init.step (.environment (ofBytes bytes).ring init.si.pdpDevs allocs) = _ from rfl)

/-- A formatted frame without data, and a raw frame that declares a hundred bytes of data. -/
def longRaw : IpcIdx → List Byte
  | .fmt => fmtBuf 0 []
  | .raw => [hdlcStart, 106, 0, 0, 0, 0, 0]
  | .rfs => []

/-- The first frame is read, and the second one is rejected and purged. -/
theorem sipcRead_lengths_iff_long : (written longRaw []).Handles 0 :=
  ((sipcRead_lengths_iff (written_reached longRaw []) (by decide +kernel) 0).2
    ⟨rfl, by decide +kernel⟩).mpr (by decide +kernel)

/-- A raw frame that declares no length at all. -/
def shortRaw : IpcIdx → List Byte
  | .raw => [hdlcStart, 0, 0, 0, 0, 0, 0]
  | _ => []

/-- A fragment that declares no length at all. -/
def shortFrag : IpcIdx → List Byte
  | .fmt => [hdlcStart, 0, 0, 0x81]
  | _ => []

/-- A negative length is passed to `skb_put`; `BUG()` is reached; and without memory a
frame that is too long stays in the ring. -/
theorem sipcRead_lengths_fail : ((written shortRaw []).sipcRead 0 0).2.ret = .error .negative ∧
    ((written shortFrag []).sipcRead 0 0).2.ret = .error .bug ∧
    ((written longRaw [true, false]).sipcRead 0 0).2.reads = [(.fmt, 0), (.raw, enomem)] ∧
    ¬((written longRaw [true, false]).sipcRead 0 0).1.Empty .raw := by
  decide +kernel

/-! ## Acknowledgements -/

/-- A ring has been read without error, and the modem wants to know. -/
structure Asked (mailbox : Nat) (reads : List (IpcIdx × Int)) (idx : IpcIdx) : Prop where
  read : ∃ r, (idx, r) ∈ reads ∧ 0 ≤ r
  asked : Carries mailbox (mbData idx).maskReqAck

theorem Asked.cons {reads : List (IpcIdx × Int)} (h : Asked mailbox reads idx)
    (read : IpcIdx × Int) : Asked mailbox (read :: reads) idx := by
  obtain ⟨⟨r, hr, hpos⟩, hasked⟩ := h
  exact ⟨⟨r, mem_cons_of_mem _ hr, hpos⟩, hasked⟩

theorem not_asked_nil (idx : IpcIdx) : ¬Asked mailbox [] idx := by
  rintro ⟨⟨r, hr, -⟩, -⟩
  cases hr

/-- `res` is the mask of one of the rings that are to be acknowledged, or there is none. -/
theorem readRings_res (mailbox : Nat) (rings : List IpcIdx) (rx : Rx) (res : Nat) (r : Int) :
    ((readRings mailbox rings rx res r).res = res ∧
      ∀ idx, ¬Asked mailbox (readRings mailbox rings rx res r).reads idx) ∨
    ∃ idx, Asked mailbox (readRings mailbox rings rx res r).reads idx ∧
      (readRings mailbox rings rx res r).res = (mbData idx).maskResAck := by
  induction rings generalizing rx res r with
  | nil => exact .inl ⟨rfl, not_asked_nil⟩
  | cons ring rest ih =>
    unfold readRings
    dsimp only
    split
    · exact ih rx res r
    split
    · exact .inl ⟨rfl, not_asked_nil⟩
    rename_i r' _
    split
    · refine .inl ⟨rfl, fun idx h => ?_⟩
      obtain ⟨⟨r₁, hr, hpos⟩, -⟩ := h
      cases mem_singleton.mp hr
      omega
    · rcases ih (rx.put ring _ _) (if mailbox &&& (mbData ring).maskReqAck ≠ 0 then
        (mbData ring).maskResAck else res) r' with ⟨hres, hnone⟩ | ⟨idx, hasked, hres⟩
      · -- this ring is the last one that can be acknowledged
        by_cases hreq : Carries mailbox (mbData ring).maskReqAck
        · refine .inr ⟨ring, ⟨⟨r', mem_cons_self, by omega⟩, hreq⟩, ?_⟩
          exact hres.trans (if_pos hreq)
        · refine .inl ⟨hres.trans (if_neg hreq), fun idx h => ?_⟩
          obtain ⟨⟨r₁, hr, hpos₁⟩, hasked⟩ := h
          rcases mem_cons.mp hr with heq | hmem
          · cases heq
            exact hreq hasked
          · exact hnone idx ⟨⟨r₁, hmem, hpos₁⟩, hasked⟩
      · exact .inr ⟨idx, hasked.cons _, hres⟩

/-- The word that a call sends acknowledges a ring. -/
def Acked (res : ReadResult) (idx : IpcIdx) : Prop :=
  ∃ word, res.mailbox = some word ∧ Carries word (mbData idx).maskResAck

/-- The mask of one ring does not acknowledge another one. -/
theorem carries_maskResAck (idx j : IpcIdx) :
    Carries (mbDataWord (mbData j).maskResAck) (mbData idx).maskResAck ↔ idx = j := by
  cases idx <;> cases j <;> decide

/-- A ring has data and can be read to its end, and the modem wants to know. -/
def Due (rx : Rx) (mailbox : Nat) (idx : IpcIdx) : Prop :=
  idx ∈ rx.visited ∧ (rx.scan idx).whole = true ∧ Carries mailbox (mbData idx).maskReqAck
  deriving Decidable

theorem LoopOk.due {l : Loop} (h : LoopOk rx rx.visited l) (hasked : Asked mailbox l.reads idx) :
    rx.Due mailbox idx := by
  obtain ⟨⟨r, hr, hpos⟩, hcarries⟩ := hasked
  obtain ⟨hidx, ⟨-, hwhole⟩ | ⟨hret, -⟩ | hret⟩ := h.reads _ hr
  · exact ⟨hidx, hwhole, hcarries⟩
  · exact absurd hpos (by rw [show r = ebadmsg from hret]; decide)
  · exact absurd hpos (by rw [show r = enomem from hret]; decide)

theorem LoopOk.asked {l : Loop} (h : LoopOk rx rx.visited l)
    (hreads : ∀ idx ∈ rx.visited, ∃ r, r ≠ enomem ∧ (idx, r) ∈ l.reads)
    (hdue : rx.Due mailbox idx) : Asked mailbox l.reads idx := by
  obtain ⟨hidx, hwhole, hcarries⟩ := hdue
  obtain ⟨r, hne, hr⟩ := hreads idx hidx
  rcases (h.reads _ hr).2 with ⟨hret, -⟩ | ⟨-, hnot, -⟩ | hret
  · exact ⟨⟨r, hr, hret.ge⟩, hcarries⟩
  · cases hnot.symm.trans hwhole
  · exact absurd hret hne

/-- All rings that are read without error and of which the modem wants to know are acknowledged. -/
def AcksAll (rx : Rx) (mailbox : Nat) : Prop :=
  ∀ idx, Asked mailbox (rx.sipcRead 0 mailbox).2.reads idx → Acked (rx.sipcRead 0 mailbox).2 idx

/-- The word that is sent acknowledges one of the rings that are to be acknowledged. -/
theorem acksAll_iff {r : Int} (h : (rx.sipcRead 0 mailbox).2.ret = .ok r) :
    rx.AcksAll mailbox ↔ ∀ idx j, Asked mailbox (rx.sipcRead 0 mailbox).2.reads idx →
      Asked mailbox (rx.sipcRead 0 mailbox).2.reads j → idx = j := by
  unfold AcksAll
  unfold sipcRead at h ⊢
  rw [if_neg (by decide)] at h ⊢
  have hres := readRings_res mailbox [.fmt, .raw, .rfs] rx 0 0
  generalize readRings mailbox [.fmt, .raw, .rfs] rx 0 0 = l at h hres
  dsimp only at h ⊢
  split at h
  · cases h
  have hacked {k : IpcIdx} (hk : l.res = (mbData k).maskResAck) (idx : IpcIdx) :
      (∃ word, (if l.res = 0 then none else some (mbDataWord l.res)) = some word ∧
        Carries word (mbData idx).maskResAck) ↔ idx = k := by
    have hne : ¬(mbData k).maskResAck = 0 := by cases k <;> decide
    rw [hk, if_neg hne]
    simp [carries_maskResAck]
  constructor
  · intro hall idx j hidx hj
    rcases hres with ⟨-, hnone⟩ | ⟨k, -, hk⟩
    · exact absurd hidx (hnone idx)
    · exact ((hacked hk idx).mp (hall idx hidx)).trans ((hacked hk j).mp (hall j hj)).symm
  · intro hone idx hidx
    rcases hres with ⟨-, hnone⟩ | ⟨k, hk, hmask⟩
    · exact absurd hidx (hnone idx)
    · exact (hacked hmask idx).mpr (hone idx k hidx hk)

/-- The rings are acknowledged if at most one is due; and only then, if there is enough memory. -/
theorem sipcRead_acks_iff (h : Reached step KeepsLengths init rx)
    (hlen : ∀ fr ∈ rx.frames, ¬fr.Bad) (mailbox : Nat) :
    ((∀ idx j, rx.Due mailbox idx → rx.Due mailbox j → idx = j) → rx.AcksAll mailbox) ∧
      (rx.si.Plenty rx.frames.length → rx.AcksAll mailbox →
        ∀ idx j, rx.Due mailbox idx → rx.Due mailbox j → idx = j) := by
  have hok := sipcRead_ok (frag_ok h) (fun fr hfr hneg => hlen fr hfr hneg.bad) mailbox
  obtain ⟨r, hret⟩ := sipcRead_returns (frag_ok h) hlen mailbox
  rw [acksAll_iff hret]
  refine ⟨fun hone idx j hidx hj => hone idx j (hok.due hidx) (hok.due hj),
    fun hplenty hone idx j hidx hj => ?_⟩
  rcases hok.plenty hplenty with ⟨e, he⟩ | ⟨-, hreads⟩
  · cases hret.symm.trans he
  · exact hone idx j (hok.asked hreads hidx) (hok.asked hreads hj)

/-- A frame without data in the formatted and in the raw ring. -/
def emptyFrames : IpcIdx → List Byte
  | .fmt => fmtBuf 0 []
  | .raw => hdlcStart :: (rawHdr 0 6 ++ [hdlcEnd])
  | .rfs => []

/-- Two rings are read, and the one of which the modem wants to know is acknowledged. -/
theorem sipcRead_acks_iff_fmt : Acked ((written emptyFrames []).sipcRead 0 0x23).2 .fmt := by
  refine (sipcRead_acks_iff (written_reached emptyFrames []) (by decide +kernel) 0x23).1
    (fun idx j hidx hj => ?_) .fmt ⟨⟨0, by decide +kernel, by decide⟩, by decide⟩
  have hfmt : ∀ {idx}, (written emptyFrames []).Due 0x23 idx → idx = .fmt := by
    intro idx hidx
    have hcarries := hidx.2.2
    revert hcarries
    cases idx <;> decide
  exact (hfmt hidx).trans (hfmt hj).symm

/-- Both rings are read and both acknowledgements are asked for; the word that is sent has
only that of the raw ring. -/
theorem sipcRead_acks_one : ((written emptyFrames []).sipcRead 0 0x33).2.ret = .ok 0 ∧
    ((written emptyFrames []).sipcRead 0 0x33).2.mailbox = some 0x84 ∧
    Asked 0x33 ((written emptyFrames []).sipcRead 0 0x33).2.reads .fmt ∧
    Asked 0x33 ((written emptyFrames []).sipcRead 0 0x33).2.reads .raw ∧
    ¬Acked ((written emptyFrames []).sipcRead 0 0x33).2 .fmt := by
  have hmailbox : ((written emptyFrames []).sipcRead 0 0x33).2.mailbox = some 0x84 := by
    decide +kernel
  refine ⟨by decide +kernel, hmailbox, ?_, ?_, ?_⟩
  · exact ⟨⟨0, by decide +kernel, by decide⟩, by decide⟩
  · exact ⟨⟨0, by decide +kernel, by decide⟩, by decide⟩
  · rintro ⟨word, hword, hcarries⟩
    cases hmailbox.symm.trans hword
    exact absurd hcarries (by decide)

/-! ## Fragments -/

/-- As long as no fragment declares one byte less than its header, the bits tell which lists there
are, `_find_frag_list` finds its list, and the lengths are those of the blocks. -/
theorem frag_consistent (h : Reached step KeepsLengths init rx) :
    (∀ m, rx.si.frag.bitmap m = true ↔ (rx.si.frag.head.map FragList.msgId).count m = 1) ∧
    (∀ m, ∃ fl, rx.si.frag.find m = .ok fl) ∧
    ∀ fl ∈ rx.si.frag.head, fl.len = (fl.blocks.map FragBlock.len).sum ∧
      ∀ fb ∈ fl.blocks, fb.len ≤ fragBlockMax := by
  have hok := frag_ok h
  refine ⟨fun m => ?_, fun m => ?_, fun fl h => ⟨(hok.lists fl h).len, fun fb hfb =>
    ((hok.lists fl h).block fb hfb).bound⟩⟩
  · rw [hok.bitmap, ← mem_map]
    exact ⟨count_eq_one_of_mem hok.unique, fun h => count_pos_iff.mp (by omega)⟩
  · rcases hok.find_cases m with ⟨hfind, -⟩ | ⟨fl, -, -, hfind⟩
    · exact ⟨none, hfind⟩
    · exact ⟨some fl, hfind⟩

/-- The modem has written this into the ring of formatted frames. -/
def inFmt (bytes : List Byte) : IpcIdx → List Byte
  | .fmt => bytes
  | _ => []

/-- Fragments of two packets, of which the first one is finished. -/
theorem frag_consistent_two : ∃ rx, Reached step KeepsLengths init rx ∧
    (rx.si.frag.bitmap 1 = false ∧ rx.si.frag.bitmap 2 = true) ∧
    (rx.si.frag.head.map FragList.msgId).count 1 ≠ 1 ∧
    (rx.si.frag.head.map FragList.msgId).count 2 = 1 :=
  Reached.exists_of_checked_and
    [.environment (ofBytes (inFmt [hdlcStart, 4, 0, 0x81, 7, hdlcEnd, hdlcStart, 5, 0, 0x82, 8, 9,
        hdlcEnd, hdlcStart, 3, 0, 1, hdlcEnd])).ring (fun _ => false) [], .read 0 0]
    (by decide +kernel) fun _ hrun hbits =>
      ⟨fun hcount => absurd (((frag_consistent hrun).1 1).mpr hcount) (by simp [hbits.1]),
        ((frag_consistent hrun).1 2).mp hbits.2⟩

/-- The frame declares less than its header: -1 is added to the length of a new block. -/
theorem frag_negative : ∃ rx, Reached step (fun _ _ => True) init rx ∧
    ∃ fl ∈ rx.si.frag.head, fl.len = 2 ^ 32 - 1 ∧ ∃ fb ∈ fl.blocks, fragBlockMax < fb.len :=
  Reached.exists_of_checked
    [.environment (ofBytes (inFmt [hdlcStart, 2, 0, 0x81])).ring (fun _ => false) [], .read 0 0]
    (by decide +kernel)

end Rx

end AndroidKernel.Sipc
