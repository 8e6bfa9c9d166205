import AndroidKernel.Sipc.Framing
import AndroidKernel.Sipc.Lengths

/-!
# Packets put together from frames

What `_read_fmt` does with the frames that `_write_fmt` sends: a fragment is added to the
start of a packet, a last frame completes it, a single frame is a packet. Where there is
no memory for a frame nothing happens, and it is read again later.
-/

namespace AndroidKernel.Sipc

open List

/-- The start of a packet, and the packets that are complete. -/
structure Assembly where
  part : List Byte
  packets : List (List Byte)

namespace Assembly

def empty : Assembly := ⟨[], []⟩

variable (a : Assembly) (f : FmtFrame) (fs : List FmtFrame)

/-- One more frame. -/
def add : Assembly :=
  if f.control = 0x81 then ⟨a.part ++ f.data, a.packets⟩
  else if f.control = 0x01 then ⟨[], a.packets ++ [a.part ++ f.data]⟩
  else ⟨a.part, a.packets ++ [f.data]⟩

def addAll : Assembly := fs.foldl add a

@[simp] theorem addAll_cons : a.addAll (f :: fs) = (a.add f).addAll fs := rfl

theorem addAll_append (gs : List FmtFrame) :
    a.addAll (fs ++ gs) = (a.addAll fs).addAll gs := foldl_append

/-- Packets that are complete stay. -/
theorem packets_stay : ∃ more, (a.addAll fs).packets = a.packets ++ more := by
  induction fs generalizing a with
  | nil => exact ⟨[], (append_nil _).symm⟩
  | cons f fs ih =>
    obtain ⟨more, hmore⟩ := ih (a.add f)
    rw [addAll_cons, hmore]
    unfold add
    split
    · exact ⟨more, rfl⟩
    · split <;> exact ⟨_, append_assoc ..⟩

end Assembly

/-- The frames that `_write_fmt` sends, without fragments that are too long for a block. -/
inductive FmtFrame.Sent (f : FmtFrame) : Prop
  | part (hcontrol : f.control = 0x81) (hne : f.data ≠ []) (hlen : f.data.length < fragBlockMax)
  | last (hcontrol : f.control = 0x01)
  | single (hcontrol : f.control = 0x00)

/-- The receiver has an assembly: the start of a packet as the one list of fragments, and
the packets as what it has handed up. -/
structure Assembled (si : Si) (a : Assembly) : Prop where
  ok : si.frag.Ok
  lists : (a.part = [] ∧ si.frag.head = []) ∨
    (a.part ≠ [] ∧ ∃ fl, si.frag.head = [fl] ∧ fl.msgId = 1 ∧ fl.data = a.part)
  received : si.received = a.packets.map (.phonet pnFmt)

variable {si si' : Si} {rb : Ringbuf} {a : Assembly} {f : FmtFrame} {rest : List Byte}
  {fl : FragList} {fs : List FmtFrame}

theorem Assembled.later (h : Assembled si a) (hlater : si.Later si') : Assembled si' a := by
  obtain ⟨allocs, rfl, -⟩ := hlater
  exact ⟨h.ok, h.lists, h.received⟩

/-! ## One frame -/

/-- What can become of a frame that is there whole. -/
inductive FrameRead (rb : Ringbuf) (a : Assembly) (f : FmtFrame) (out : Read) : Prop
  | done (hret : out.ret = .ok (f.data.length + 1 : Nat))
      (htaken : Taken .fmt rb out.rb (f.data ++ [hdlcEnd])) (h : Assembled out.si (a.add f))
  | noMemory (hret : out.ret = .ok enomem) (hrb : out.rb = rb) (h : Assembled out.si a)

/-- The list to which a fragment is added, which may be a new one. -/
structure ListFor (si : Si) (part : List Byte) (fl : FragList) : Prop where
  ok : si.frag.Ok
  head : si.frag.head = [fl]
  id : fl.msgId = 1
  data : fl.data = part

theorem ListFor.mem {part : List Byte} (h : ListFor si part fl) : fl ∈ si.frag.head := by
  rw [h.head]
  exact mem_singleton.mpr rfl

/-- A packet without fragments is handed up. -/
theorem Assembled.handUp (h : Assembled si a) (hok : (si.phonetRx ([] ++ f.data) pnFmt).frag.Ok)
    (hcontrol : f.control = 0x01 ∨ f.control = 0x00) (hpart : f.control = 0x01 → a.part = []) :
    Assembled (si.phonetRx ([] ++ f.data) pnFmt) (a.add f) := by
  have hreceived : (si.phonetRx ([] ++ f.data) pnFmt).received =
      (a.packets ++ [f.data]).map (.phonet pnFmt) := by
    rw [map_append, ← h.received]
    rfl
  unfold Assembly.add
  rcases hcontrol with hlast | hsingle
  · rw [hlast, hpart hlast]
    refine ⟨hok, .inl ⟨rfl, ?_⟩, hreceived⟩
    rcases h.lists with ⟨-, hnil⟩ | ⟨hne, -⟩
    · exact hnil
    · exact absurd (hpart hlast) hne
  · rw [hsingle]
    exact ⟨hok, h.lists, hreceived⟩

/-- The header that `_write_fmt_buf` writes. -/
theorem readFmtFrame_hdr (si : Si) (rb : Ringbuf) (f : FmtFrame) :
    readFmtFrame si rb (Bytes.le 2 (3 + f.data.length) ++ [f.control]) =
      if f.control.toNat &&& fmtMbMask = 0 then readFmtLast si rb f.control f.data.length
      else readFmtFrag si rb f.control f.data.length := by
  have hlen : (Bytes.le 2 (3 + f.data.length)).length = 2 := Bytes.length_le ..
  have hcontrol : (Bytes.le 2 (3 + f.data.length) ++ [f.control]).getD 2 0 = f.control := by
    simp
  have htake : (Bytes.le 2 (3 + f.data.length) ++ [f.control]).take 2 =
      Bytes.le 2 (3 + f.data.length) := take_left' hlen
  unfold readFmtFrame
  rw [hcontrol, htake, Bytes.value_le f.short]
  have hdata : ((3 + f.data.length : Nat) : Int) - 3 = f.data.length := by omega
  rw [hdata]

theorem FmtFrame.ulong_succ_length (f : FmtFrame) :
    ulong ((f.data.length : Int) + 1) = f.data.length + 1 := by
  have hshort := f.short
  unfold ulong
  omega

section

variable (hrb : rb.Valid .fmt) (hcontents : rb.contents .fmt = f.data ++ [hdlcEnd] ++ rest)

include hrb hcontents

/-- What is read of the data of a frame and its end mark. -/
theorem read_data : Taken .fmt rb (rb.read .fmt (f.data.length + 1)).1 (f.data ++ [hdlcEnd]) ∧
    (rb.read .fmt (f.data.length + 1)).2 = f.data ++ [hdlcEnd] := by
  have hread := Ringbuf.read_append hrb hcontents
  rw [length_append] at hread
  exact ⟨hread.1, hread.2.2⟩

/-- A whole fragment is read to the end of the last block. -/
theorem readFragBlock_read {fl' : FragList} (hready : Si.Ready si.frag fl fl' (f.data.length + 1)) :
    ∃ blocks len, blocks.flatMap FragBlock.data = fl.data ++ f.data ∧
      readFragBlock si rb fl' f.data.length =
        ⟨(rb.read .fmt (f.data.length + 1)).1,
          { si with frag := si.frag.set { fl' with len := len, blocks := blocks } },
          .ok (f.data.length + 1 : Nat)⟩ := by
  obtain ⟨before, fb, hblocks, hroom⟩ := hready.last
  have hlen : (f.data ++ [hdlcEnd]).length = f.data.length + 1 := by simp
  have hread := (read_data hrb hcontents).2
  have hlast : fl'.blocks.getLastD ⟨0, []⟩ = fb := by simp [hblocks]
  have hbefore : fl'.blocks.dropLast = before := by simp [hblocks]
  have hfb := hready.ok.block fb (by rw [hblocks]; exact mem_append_right _ (mem_singleton_self fb))
  have hadd := (hfb.add hlen hroom).2.2
  have hmax : fragBlockMax = 4080 := rfl
  have hlong := @long_of_mem (fb.len : Int) (by omega) (by omega)
  refine ⟨before ++ [fb.add (f.data ++ [hdlcEnd]) f.data.length],
    ulong (fl'.len + f.data.length), ?_, ?_⟩
  · rw [← hready.data, FragList.data, hblocks, flatMap_append, flatMap_append, flatMap_singleton,
      flatMap_singleton, hadd, take_left, append_assoc]
  · unfold readFragBlock
    rw [f.ulong_succ_length]
    generalize rb.read .fmt (f.data.length + 1) = rd at hread
    dsimp only
    rw [hlast, hbefore, hread, hlen, hlong, if_neg (by omega), if_neg (by omega)]

theorem readFragOf_read (hcontrol : f.control = 0x81)
    (hne : f.data ≠ []) (hlen : f.data.length < fragBlockMax) (hfl : ListFor si a.part fl)
    (hreceived : si.received = a.packets.map (.phonet pnFmt)) :
    FrameRead rb a f (readFragOf si rb fl f.data.length) := by
  have hshort := f.short
  have hok := @readFragOf_ok rb si f.data.length hrb.tail hfl.ok (by omega) fl hfl.mem (by omega)
  have hnonneg : ¬Incoming.Negative ⟨.frag, f.data.length, rb.contents .fmt⟩ := fun h => by
    have hlen := h.2
    dsimp only at hlen
    omega
  have hprepared := Si.prepareFragBlock_prepared hfl.ok hfl.mem (f.data.length + 1)
  unfold readFragOf at hok ⊢
  generalize si.prepareFragBlock fl (f.data.length + 1) = out at hok hprepared
  cases hprepared with
  | bug hbug =>
    rw [f.ulong_succ_length] at hbug
    omega
  | noMemory _ hlater _ =>
    -- a list that has no data yet is destroyed
    refine .noMemory rfl rfl ⟨hok.frag_ok hnonneg rfl, ?_, ?_⟩
    · have hpart : fl.len = a.part.length := by
        rw [← hfl.data, (hfl.ok.lists fl hfl.mem).length_data]
      dsimp only
      split
      · refine .inl ⟨length_eq_zero_iff.mp (by omega), ?_⟩
        show (eraseP _ _) = []
        rw [hlater.frag, hfl.head]
        simp
      next hpos =>
        refine .inr ⟨fun hnil => hpos (by rw [hpart, hnil]; rfl), fl, ?_, hfl.id, hfl.data⟩
        rw [hlater.frag, hfl.head]
    · dsimp only
      split <;> exact hlater.received.trans hreceived
  | @ready si' fl' _ hlater hready =>
    rw [f.ulong_succ_length, ← hlater.frag] at hready
    obtain ⟨blocks, len, hdata, heq⟩ := readFragBlock_read hrb hcontents hready
    have hread := (read_data hrb hcontents).1
    dsimp only at hok ⊢
    rw [heq] at hok ⊢
    refine .done rfl hread ⟨hok.frag_ok hnonneg rfl, .inr ?_, ?_⟩
    · unfold Assembly.add
      rw [if_pos hcontrol]
      refine ⟨fun hnil => hne (append_eq_nil_iff.mp hnil).2, ⟨fl'.msgId, len, blocks⟩, ?_,
        hready.id.trans hfl.id, ?_⟩
      · show Keyed.replace FragList.msgId _ si'.frag.head = _
        rw [hlater.frag, hfl.head]
        simp [Keyed.replace, hready.id]
      · show blocks.flatMap FragBlock.data = _
        rw [hdata, hfl.data]
    · unfold Assembly.add
      rw [if_pos hcontrol]
      exact hlater.received.trans hreceived

theorem readFmtFrag_read (hcontrol : f.control = 0x81)
    (hne : f.data ≠ []) (hlen : f.data.length < fragBlockMax) (h : Assembled si a) :
    FrameRead rb a f (readFmtFrag si rb f.control f.data.length) := by
  have hid : msgIdOf f.control = 1 := by
    rw [hcontrol]
    decide
  unfold readFmtFrag
  rw [hid]
  rcases Si.fragListOf_cases h.ok 1 with ⟨fl, hfl, hid, hof⟩ | ⟨hnew, si', hlater, ⟨-, hof⟩ | hof⟩
  · rw [hof]
    rcases h.lists with ⟨-, hnil⟩ | ⟨-, fl', hhead, hid', hdata⟩
    · rw [hnil] at hfl
      cases hfl
    · rw [hhead] at hfl
      cases mem_singleton.mp hfl
      exact readFragOf_read hrb hcontents hcontrol hne hlen ⟨h.ok, hhead, hid, hdata⟩ h.received
  · rw [hof]
    exact .noMemory rfl rfl (h.later hlater)
  · rw [hof]
    rcases h.lists with ⟨hpart, hnil⟩ | ⟨-, fl', hhead, hid', -⟩
    · refine readFragOf_read hrb hcontents hcontrol hne hlen ⟨h.ok.create hnew, ?_, rfl, ?_⟩
        (hlater.received.trans h.received)
      · rw [hnil]
      · rw [hpart]
        rfl
    · exact absurd hid' (hnew fl' (by rw [hhead]; exact mem_singleton.mpr rfl))

/-- A last frame, with the fragments of its packet that are found. -/
theorem readLastOf_read {found : Option FragList} (hsi : si.frag.Ok)
    (hfound : Found si.frag found) : (∃ si', si.Later si' ∧ readLastOf si rb found f.data.length =
      ⟨rb, si', .ok enomem⟩) ∨
    ∃ si', si.Later si' ∧ readLastOf si rb found f.data.length =
      ⟨(rb.read .fmt (f.data.length + 1)).1,
        (si'.destroyFound found).phonetRx ((found.map (·.data)).getD [] ++ f.data) pnFmt,
        .ok (f.data.length + 1 : Nat)⟩ := by
  have hshort := f.short
  have hlen : (f.data ++ [hdlcEnd]).length = f.data.length + 1 := by simp
  have htake : (rb.contents .fmt).take (f.data.length + 1) = f.data ++ [hdlcEnd] := by
    rw [hcontents, take_left' hlen]
  have hsize := f.ulong_succ_length
  unfold readLastOf
  dsimp only
  split
  · refine .inr ⟨si.alloc.2, Si.alloc_later si, ?_⟩
    rw [fillSkb_found hsi (by omega) (by omega) hfound]
    dsimp only
    rw [fill_ok hrb.tail (by omega) (by omega) hsize (by omega)]
    dsimp only
    rw [htake, hlen, if_neg (by omega), Int.toNat_natCast, take_left]
  · exact .inl ⟨si.alloc.2, Si.alloc_later si, rfl⟩

theorem readFmtLast_read (hcontrol : f.control = 0x01 ∨ f.control = 0x00) (h : Assembled si a) :
    FrameRead rb a f (readFmtLast si rb f.control f.data.length) := by
  have hshort := f.short
  have hok := @readFmtLast_ok rb si f.data.length hrb.tail h.ok (by omega) f.control
  have hnonneg : ¬Incoming.Negative ⟨.last, f.data.length, rb.contents .fmt⟩ := by
    rintro ⟨hkind, -⟩
    cases hkind
  have htaken := (read_data hrb hcontents).1
  unfold readFmtLast at hok ⊢
  rcases h.ok.find_cases (msgIdOf f.control) with ⟨hfind, hnone⟩ | ⟨fl, hfl, hid, hfind⟩
  · rw [hfind] at hok ⊢
    dsimp only at hok ⊢
    have hfound : Found si.frag none := ⟨fun _ hnot => by cases hnot⟩
    rcases readLastOf_read hrb hcontents h.ok hfound with
      ⟨si', hlater, heq⟩ | ⟨si', hlater, heq⟩
    · rw [heq]
      exact .noMemory rfl rfl (h.later hlater)
    · rw [heq] at hok ⊢
      refine .done rfl htaken ((h.later hlater).handUp (hok.frag_ok hnonneg rfl) hcontrol ?_)
      intro hlast
      rw [hlast] at hnone
      rcases h.lists with ⟨hpart, -⟩ | ⟨-, fl, hhead, hid, -⟩
      · exact hpart
      · exact absurd hid (hnone fl (by rw [hhead]; exact mem_singleton.mpr rfl))
  · -- the packet has fragments
    rcases h.lists with ⟨-, hnil⟩ | ⟨-, fl', hhead, hid', hdata⟩
    · rw [hnil] at hfl
      cases hfl
    rw [hhead] at hfl
    cases mem_singleton.mp hfl
    have hlast : f.control = 0x01 := by
      refine hcontrol.resolve_right fun hsingle => ?_
      rw [hid', hsingle] at hid
      cases hid
    rw [hfind] at hok ⊢
    dsimp only at hok ⊢
    have hfound : Found si.frag (some fl) :=
      ⟨fun _ heq => by cases heq; rw [hhead]; exact mem_singleton.mpr rfl⟩
    rcases readLastOf_read hrb hcontents h.ok hfound with
      ⟨si', hlater, heq⟩ | ⟨si', hlater, heq⟩
    · rw [heq]
      exact .noMemory rfl rfl (h.later hlater)
    rw [heq] at hok ⊢
    refine .done rfl htaken ⟨hok.frag_ok hnonneg rfl, .inl ⟨?_, ?_⟩, ?_⟩
    · unfold Assembly.add
      rw [hlast]
      rfl
    · show eraseP _ si'.frag.head = []
      rw [hlater.frag, hhead]
      simp
    · unfold Assembly.add
      rw [hlast]
      show si'.received ++ [_] = _
      rw [hlater.received, h.received]
      simp [hdata]

/-- A frame of which the header has been read. -/
theorem readFmtFrame_read (hf : f.Sent) (h : Assembled si a) :
    FrameRead rb a f (readFmtFrame si rb (Bytes.le 2 (3 + f.data.length) ++ [f.control])) := by
  rw [readFmtFrame_hdr]
  cases hf with
  | part hcontrol hne hlen =>
    rw [if_neg (by rw [hcontrol]; decide)]
    exact readFmtFrag_read hrb hcontents hcontrol hne hlen h
  | last hcontrol =>
    rw [if_pos (by rw [hcontrol]; decide)]
    exact readFmtLast_read hrb hcontents (.inl hcontrol) h
  | single hcontrol =>
    rw [if_pos (by rw [hcontrol]; decide)]
    exact readFmtLast_read hrb hcontents (.inr hcontrol) h

end

/-! ## `_read_fmt` -/

/-- What `_read_fmt` does with whole frames: it reads them all, or up to one for which
there is no memory. -/
structure FramesRead (a : Assembly) (fs : List FmtFrame) (out : Read) : Prop where
  valid : out.rb.Valid .fmt
  split : ∃ got rest, fs = got ++ rest ∧ out.rb.contents .fmt = rest.flatMap FmtFrame.encode ∧
    Assembled out.si (a.addAll got) ∧ (out.ret = .ok 0 ∧ rest = [] ∨ out.ret = .ok enomem)

theorem readFrames_read {fuel : Nat} {inbuf : Int} (hrb : rb.Valid .fmt)
    (hcontents : rb.contents .fmt = fs.flatMap FmtFrame.encode)
    (hinbuf : inbuf = (fs.flatMap FmtFrame.encode).length) (hfuel : inbuf ≤ fuel)
    (hfs : ∀ f ∈ fs, f.Sent) (h : Assembled si a) :
    FramesRead a fs (readFrames .fmt 3 readFmtFrame fuel si rb inbuf) := by
  induction fs generalizing fuel si rb inbuf a with
  | nil =>
    have hstop : readFrames .fmt 3 readFmtFrame fuel si rb inbuf = ⟨rb, si, .ok 0⟩ := by
      cases fuel with
      | zero => rfl
      | succ fuel =>
        unfold readFrames
        rw [if_pos (by simp at hinbuf; omega)]
    rw [hstop]
    exact ⟨hrb, [], [], rfl, hcontents, h, .inl ⟨rfl, rfl⟩⟩
  | cons f fs ih =>
    have hlen : f.encode.length = f.data.length + 5 := length_fmtBuf _ _
    rw [flatMap_cons] at hcontents
    rw [flatMap_cons, length_append] at hinbuf
    obtain ⟨fuel, rfl⟩ : ∃ n, fuel = n + 1 := ⟨fuel - 1, by omega⟩
    -- the mark and the header
    have hstart : rb.contents .fmt =
        (hdlcStart :: (Bytes.le 2 (3 + f.data.length) ++ [f.control])) ++
          (f.data ++ [hdlcEnd] ++ fs.flatMap FmtFrame.encode) := by
      rw [hcontents, FmtFrame.encode, fmtBuf]
      simp
    obtain ⟨htaken, hrest, hread⟩ := Ringbuf.read_append hrb hstart
    have hfour : (hdlcStart :: (Bytes.le 2 (3 + f.data.length) ++ [f.control])).length = 1 + 3 := by
      simp
    rw [hfour] at htaken hrest hread
    have hout := readFmtFrame_read htaken.valid hrest (hfs f mem_cons_self) h
    unfold readFrames
    rw [if_neg (by omega)]
    dsimp only
    rw [hread, tail_cons]
    generalize readFmtFrame si (rb.read .fmt (1 + 3)).1
      (Bytes.le 2 (3 + f.data.length) ++ [f.control]) = out at hout
    cases hout with
    | done hret htaken' h' =>
      have hnext : out.rb.contents .fmt = fs.flatMap FmtFrame.encode := by
        have hsplit := htaken'.contents
        rw [hrest] at hsplit
        exact (append_cancel_left hsplit).symm
      rw [hret]
      have hloop := @ih out.si out.rb (a.add f) fuel
        (inbuf - (1 + (3 : Nat)) - (f.data.length + 1 : Nat)) htaken'.valid hnext (by omega)
          (by omega)
        (fun g hg => hfs g (mem_cons_of_mem _ hg)) h'
      obtain ⟨got, rest, hsplit, hleft, hsi, hend⟩ := hloop.split
      refine ⟨hloop.valid, f :: got, rest, by rw [hsplit]; rfl, hleft, hsi, hend⟩
    | noMemory hret hsame h' =>
      rw [hret]
      have hback : ({ out.rb with tail := rb.tail } : Ringbuf) = rb := by
        rw [hsame]
        have hhead := htaken.head
        have hbase := htaken.base
        cases rb
        dsimp only
        rw [hhead, hbase]
      rw [hback]
      exact ⟨hrb, [], f :: fs, rfl, hcontents, h', .inr rfl⟩

end AndroidKernel.Sipc
