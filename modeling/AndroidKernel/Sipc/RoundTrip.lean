import AndroidKernel.Sipc.Assembly

/-!
# The formatted channel from end to end

Packets are written by `_write_fmt`, and again after `-ENOSPC`. The modem takes bytes from
the out buffer as it likes and delivers them in their order, whole frames at a time, to the
in buffer, where `_read_fmt` reads them; or `test_copy_buf` copies the out buffer to the in
buffer. What is handed up is what was sent, if no packet is empty and none is cut into
fragments that do not fit into a block.

An empty packet is not sent at all. A fragment can be as long as the ring, that is eleven
bytes longer than what a block can take, and then the receiver reaches `BUG()`.
-/

namespace AndroidKernel.Sipc

open List

/-! ## Writing a packet -/

namespace Tx

variable {tx : Tx} {skb : Skb}

/-- What a call of `_write_fmt` does that has something to write. -/
inductive PacketWritten (tx : Tx) (skb : Skb) (tx' : Tx) (ret : Int) : Prop
  | noSpace (hret : ret = enospc) (hout : tx'.out .fmt = tx.out .fmt)
      (hfrag : tx'.frag = ⟨some skb.id, tx.fmtOffset skb⟩)
  | last (f : FmtFrame) (hret : ¬ret < 0)
      (hcontrol : f.control = if tx.fmtOffset skb = 0 then 0x00 else 0x01)
      (hdata : f.data = skb.data.drop (tx.fmtOffset skb))
      (hw : Written .fmt (tx.out .fmt) (tx'.out .fmt) f.encode) (hfrag : tx'.frag = ⟨none, 0⟩)
  | part (f : FmtFrame) (hret : ret = enospc) (hcontrol : f.control = 0x81)
      (hdata : f.data =
        (skb.data.drop (tx.fmtOffset skb)).take ((tx.out .fmt).toRingbuf.space .fmt - 5))
      (hroom : 10 ≤ (tx.out .fmt).toRingbuf.space .fmt)
      (hmore : (tx.out .fmt).toRingbuf.space .fmt < skb.data.length - tx.fmtOffset skb + 5)
      (hw : Written .fmt (tx.out .fmt) (tx'.out .fmt) f.encode)
      (hfrag : tx'.frag =
        ⟨some skb.id, tx.fmtOffset skb + ((tx.out .fmt).toRingbuf.space .fmt - 5)⟩)

theorem writeFmt_written (h : tx.Valid) (hoff : tx.fmtOffset skb < skb.data.length) :
    PacketWritten tx skb (tx.writeFmt skb).1 (tx.writeFmt skb).2 := by
  have hself := writeFmt_out tx skb
  have hret : (tx.writeFmt skb).2 = (tx.fmtLoop skb).ret := rfl
  have hfrag : (tx.writeFmt skb).1.frag =
      if 0 < (tx.fmtLoop skb).ret then ⟨none, 0⟩ else ⟨some skb.id, (tx.fmtLoop skb).offset⟩ := rfl
  have hspace := (h .fmt).space_eq
  have hsize : IpcIdx.fmt.size = 4096 := rfl
  have hloop := fmtLoop_written h skb
  rw [hret]
  generalize tx.fmtLoop skb = l at hself hfrag hloop
  cases hloop with
  | nothing hend => omega
  | noSpace =>
    exact .noSpace rfl hself hfrag
  | last _ hfits hw =>
    rw [if_pos (by dsimp only; omega)] at hfrag
    refine .last ⟨_, _, ?_⟩ (by dsimp only; omega) rfl rfl (by rw [hself]; exact hw) hfrag
    rw [length_drop]
    omega
  | part hroom hmore hw =>
    refine .part ⟨_, _, ?_⟩ rfl rfl rfl hroom hmore (by rw [hself]; exact hw) hfrag
    rw [length_take]
    omega

theorem writeFmt_valid (h : tx.Valid) (skb : Skb) : (tx.writeFmt skb).1.Valid := by
  obtain ⟨block, happ, -⟩ := writeFmt_appended h skb
  exact happ.valid h

/-- What the modem takes is the start of what is in the ring. -/
theorem consume_contents {idx : IpcIdx} {n : Nat} (h : tx.Valid)
    (hn : n ≤ (tx.out idx).toRingbuf.count idx) : (tx.out idx).toRingbuf.contents idx =
      ((tx.out idx).toRingbuf.contents idx).take n ++
        ((tx.consume idx n).out idx).toRingbuf.contents idx := by
  have hvalid := consume_valid h idx n idx
  have hold := (h idx).count_eq
  have hnew := hvalid.count_eq
  have hlt := (h idx).count_lt
  have hhead := (h idx).head
  have htail := (h idx).tail
  rw [consume_out] at hnew ⊢
  dsimp only at hnew
  have hcount : Ringbuf.count idx
      { (tx.out idx).toRingbuf with tail := ((tx.out idx).tail + n) % idx.size } =
      (tx.out idx).toRingbuf.count idx - n := by
    rw [hnew]
    have hmod := Ring.mod_add (show n < idx.size by omega) (tx.out idx).tail
    rw [Nat.mod_eq_of_lt htail] at hmod
    rw [hmod]
    split at hold <;> split <;> split <;> omega
  have hsplit := Fifo.window_add idx.size (tx.out idx).base (tx.out idx).tail n
    ((tx.out idx).toRingbuf.count idx - n)
  rw [Nat.add_sub_cancel' hn] at hsplit
  unfold Ringbuf.contents
  rw [hcount, hsplit, take_left' (Fifo.length_window ..)]

end Tx

/-! ## The machine -/

/-- Both ends of the formatted channel, the packets to be written and the bytes that are on
their way; `ret` is what `_read_fmt` has returned last. -/
structure Link where
  tx : Tx
  todo : List Skb
  channel : List Byte
  rb : Ringbuf
  si : Si
  ret : Except Fault Int

namespace Link

/-- What is done to the two ends and to what is between them. The `n` bytes that are delivered to
the in buffer should be `frames`. -/
inductive Op where
  | write
  | take (n : Nat)
  | deliver (n : Nat) (frames : List FmtFrame)
  | copyBuf
  | memory (allocs : List Bool)
  | read

/-- `_write_fmt` for the first packet, which is kept if there is no space. -/
def write (l : Link) : Option Link :=
  match l.todo with
  | [] => none
  | skb :: rest =>
    some { l with
      tx := (l.tx.writeFmt skb).1
      todo := if (l.tx.writeFmt skb).2 < 0 then skb :: rest else rest }

/-- The modem writes to the in buffer. -/
def push (rb : Ringbuf) (bytes : List Byte) : Ringbuf :=
  ((OutRing.mk rb []).write .fmt bytes).1.toRingbuf

/-- `_read_fmt` for what is there, as `sipc_read` calls it. -/
def read (l : Link) : Link :=
  let out := readFmt l.si (l.rb.count .fmt) l.rb
  { l with
    rb := if out.ret = .ok ebadmsg then Rx.purgeBuffer out.rb else out.rb
    si := out.si
    ret := out.ret }

def step (l : Link) : Op → Option Link
  | .write => l.write
  | .take n =>
    if n ≤ (l.tx.out .fmt).toRingbuf.count .fmt then
      some { l with
        tx := l.tx.consume .fmt n
        channel := l.channel ++ ((l.tx.out .fmt).toRingbuf.contents .fmt).take n }
    else none
  | .deliver n _ =>
    if n ≤ l.channel.length ∧ n ≤ l.rb.space .fmt then
      some { l with
        channel := l.channel.drop n
        rb := push l.rb (l.channel.take n) }
    else none
  | .copyBuf =>
    -- `test_copy_buf`
    some { l with
      tx := l.tx.setOut .fmt { l.tx.out .fmt with tail := (l.tx.out .fmt).head }
      rb := (l.tx.out .fmt).toRingbuf }
  | .memory allocs => some { l with si := { l.si with allocs := allocs } }
  | .read => some l.read

/-- The packet that is written is not empty, and a part of it that is sent fits into a
block. Only whole frames are delivered, and the out buffer is copied if nothing else is on its
way. -/
def Fits (l : Link) : Op → Prop
  | .write =>
    ∀ skb ∈ l.todo.head?, skb.data ≠ [] ∧
      ¬(fragBlockMax + 5 ≤ (l.tx.out .fmt).toRingbuf.space .fmt ∧
        (l.tx.out .fmt).toRingbuf.space .fmt < skb.data.length - l.tx.fmtOffset skb + 5)
  | .deliver n frames => l.channel.take n = frames.flatMap FmtFrame.encode
  | .copyBuf => l.channel = [] ∧ l.rb.count .fmt = 0
  | _ => True

instance (l : Link) (op : Op) : Decidable (l.Fits op) := by
  cases op <;> unfold Fits <;> infer_instance

/-- Nothing is on its way. -/
structure Idle (l : Link) : Prop where
  todo : l.todo = []
  out : (l.tx.out .fmt).toRingbuf.count .fmt = 0
  channel : l.channel = []
  rb : l.rb.count .fmt = 0

/-- The rings are empty, and the packets are to be sent. -/
structure Start (packets : List Skb) (l : Link) : Prop where
  todo : l.todo = packets
  tx : l.tx.Valid
  out : (l.tx.out .fmt).toRingbuf.count .fmt = 0
  frag : l.tx.frag.offset = 0
  channel : l.channel = []
  rb : l.rb.Valid .fmt
  inbuf : l.rb.count .fmt = 0
  lists : l.si.frag = ⟨[], fun _ => false⟩
  received : l.si.received = []
  ret : l.ret = .ok 0

/-- How much of the packets has been written, read and handed up. -/
structure Flow (packets : List Skb) (l : Link) (done : List Skb) (got inn way : List FmtFrame) :
    Prop where
  packets : packets = done ++ l.todo
  tx : l.tx.Valid
  rb : l.rb.Valid .fmt
  sent : ∀ f ∈ got ++ inn ++ way, f.Sent
  assembled : Assembled l.si (Assembly.empty.addAll got)
  ring : l.rb.contents .fmt = inn.flatMap FmtFrame.encode
  bytes : l.channel ++ (l.tx.out .fmt).toRingbuf.contents .fmt = way.flatMap FmtFrame.encode
  written : (Assembly.empty.addAll (got ++ inn ++ way)).packets = done.map (·.data)
  started : (Assembly.empty.addAll (got ++ inn ++ way)).part =
    match l.todo with
    | [] => []
    | skb :: _ => skb.data.take (l.tx.fmtOffset skb)
  offset : l.tx.frag.offset ≠ 0 → ∃ skb rest, l.todo = skb :: rest ∧
    l.tx.frag.skb = some skb.id ∧ l.tx.frag.offset < skb.data.length
  ret : l.ret = .ok 0 ∨ l.ret = .ok enomem

variable {l l' : Link} {packets done : List Skb} {got inn way : List FmtFrame}

theorem contents_eq_nil {rb : Ringbuf} (h : rb.count .fmt = 0) : rb.contents .fmt = [] := by
  rw [← length_eq_zero_iff, Ringbuf.length_contents, h]

theorem Start.flow (h : Start packets l) : Flow packets l [] [] [] [] where
  packets := h.todo.symm
  tx := h.tx
  rb := h.rb
  sent := nofun
  assembled := by
    refine ⟨?_, .inl ⟨rfl, by rw [h.lists]⟩, h.received⟩
    rw [h.lists]
    exact ⟨nodup_nil, by simp, nofun, by decide⟩
  ring := contents_eq_nil h.inbuf
  bytes := by
    rw [h.channel, contents_eq_nil h.out]
    rfl
  written := rfl
  started := by
    have hzero (skb : Skb) : l.tx.fmtOffset skb = 0 := by
      unfold Tx.fmtOffset
      rw [h.frag, ite_self]
    cases l.todo with
    | nil => rfl
    | cons skb rest =>
      show [] = skb.data.take (l.tx.fmtOffset skb)
      rw [hzero]
      rfl
  offset hne := absurd h.frag hne
  ret := .inl h.ret

/-! ## The steps -/

namespace Flow

/-- The packet that is written has not been sent to its end. -/
theorem fmtOffset_lt (h : Flow packets l done got inn way) {skb : Skb} {rest : List Skb}
    (htodo : l.todo = skb :: rest) (hne : skb.data ≠ []) :
    l.tx.fmtOffset skb < skb.data.length := by
  have hpos := length_pos_iff.mpr hne
  unfold Tx.fmtOffset
  split
  · by_cases hzero : l.tx.frag.offset = 0
    · rw [hzero]
      exact hpos
    · obtain ⟨skb', rest', htodo', -, hlt⟩ := h.offset hzero
      rw [htodo] at htodo'
      cases htodo'
      exact hlt
  · exact hpos

/-- One more frame has been written. -/
theorem addAll_snoc (f : FmtFrame) : Assembly.empty.addAll (got ++ inn ++ (way ++ [f])) =
      (Assembly.empty.addAll (got ++ inn ++ way)).add f := by
  rw [← append_assoc, Assembly.addAll_append]
  rfl

theorem bytes_snoc {rb rb' : OutRing} {channel : List Byte} {f : FmtFrame}
    (h : channel ++ rb.toRingbuf.contents .fmt = way.flatMap FmtFrame.encode)
    (hw : Written .fmt rb rb' f.encode) :
    channel ++ rb'.toRingbuf.contents .fmt = (way ++ [f]).flatMap FmtFrame.encode := by
  rw [hw.contents, ← append_assoc, h]
  simp

theorem sent_snoc (h : ∀ f ∈ got ++ inn ++ way, f.Sent) {f : FmtFrame} (hf : f.Sent) :
    ∀ g ∈ got ++ inn ++ (way ++ [f]), g.Sent := by
  rw [← append_assoc]
  exact forall_mem_append.mpr ⟨h, forall_mem_singleton.mpr hf⟩

theorem write (h : Flow packets l done got inn way) (hfits : l.Fits .write)
    (hs : l.write = some l') : ∃ done' way', Flow packets l' done' got inn way' := by
  unfold Link.write at hs
  unfold Fits at hfits
  split at hs
  · cases hs
  rename_i skb rest htodo
  rw [htodo] at hfits
  obtain ⟨hne, hcut⟩ := hfits skb rfl
  cases hs
  have hoff := h.fmtOffset_lt htodo hne
  have hstarted : (Assembly.empty.addAll (got ++ inn ++ way)).part =
      skb.data.take (l.tx.fmtOffset skb) := by
    have hstarted := h.started
    rw [htodo] at hstarted
    exact hstarted
  have hpackets := h.packets
  rw [htodo] at hpackets
  have hvalid := Tx.writeFmt_valid h.tx skb
  have hwritten := Tx.writeFmt_written h.tx hoff
  generalize l.tx.writeFmt skb = w at hvalid hwritten
  obtain ⟨tx', ret⟩ := w
  cases hwritten with
  | noSpace hret hout hfrag =>
    subst hret
    have hoffset : tx'.fmtOffset skb = l.tx.fmtOffset skb := by
      unfold Tx.fmtOffset at hfrag ⊢
      rw [hfrag, if_pos rfl]
    refine ⟨done, way, hpackets, hvalid, h.rb, h.sent, h.assembled, h.ring, ?_, h.written, ?_, ?_,
      h.ret⟩
    · rw [hout]
      exact h.bytes
    · show _ = skb.data.take (tx'.fmtOffset skb)
      rw [hoffset]
      exact hstarted
    · intro _
      exact ⟨skb, rest, rfl, by rw [hfrag], by rw [hfrag]; exact hoff⟩
  | last f hret hcontrol hdata hw hfrag =>
    rw [if_neg hret]
    have hzero (skb : Skb) : tx'.fmtOffset skb = 0 := by
      unfold Tx.fmtOffset
      rw [hfrag]
      exact ite_self ..
    -- the packet is complete
    have hadd : (Assembly.empty.addAll (got ++ inn ++ way)).add f =
        ⟨[], (Assembly.empty.addAll (got ++ inn ++ way)).packets ++ [skb.data]⟩ := by
      unfold Assembly.add
      rw [hstarted, hcontrol, hdata]
      by_cases h0 : l.tx.fmtOffset skb = 0
      · rw [h0]
        simp
      · rw [if_neg h0]
        simp
    refine ⟨done ++ [skb], way ++ [f], ?_, hvalid, h.rb, sent_snoc h.sent ?_, h.assembled, h.ring,
      bytes_snoc h.bytes hw, ?_, ?_, ?_, h.ret⟩
    · rw [hpackets, append_assoc]
      rfl
    · by_cases h0 : l.tx.fmtOffset skb = 0
      · exact .single (by rw [hcontrol, if_pos h0])
      · exact .last (by rw [hcontrol, if_neg h0])
    · rw [addAll_snoc, hadd, h.written, map_append]
      rfl
    · rw [addAll_snoc, hadd]
      cases rest with
      | nil => rfl
      | cons skb' rest' =>
        show [] = skb'.data.take (tx'.fmtOffset skb')
        rw [hzero]
        rfl
    · intro hpos
      rw [hfrag] at hpos
      exact absurd rfl hpos
  | part f hret hcontrol hdata hroom hmore hw hfrag =>
    subst hret
    have hlen : f.data.length = (l.tx.out .fmt).toRingbuf.space .fmt - 5 := by
      rw [hdata, length_take, length_drop]
      omega
    have hoffset : tx'.fmtOffset skb =
        l.tx.fmtOffset skb + ((l.tx.out .fmt).toRingbuf.space .fmt - 5) := by
      unfold Tx.fmtOffset at hfrag ⊢
      rw [hfrag, if_pos rfl]
    have hadd : (Assembly.empty.addAll (got ++ inn ++ way)).add f =
        ⟨skb.data.take (tx'.fmtOffset skb),
          (Assembly.empty.addAll (got ++ inn ++ way)).packets⟩ := by
      unfold Assembly.add
      rw [if_pos hcontrol, hstarted, hdata, hoffset, take_add]
    refine ⟨done, way ++ [f], hpackets, hvalid, h.rb, sent_snoc h.sent ?_, h.assembled, h.ring,
      bytes_snoc h.bytes hw, ?_, ?_, ?_, h.ret⟩
    · refine .part hcontrol (fun hnil => ?_) (by omega)
      rw [hnil, length_nil] at hlen
      omega
    · rw [addAll_snoc, hadd, h.written]
    · rw [addAll_snoc, hadd]
      rfl
    · intro _
      refine ⟨skb, rest, rfl, by rw [hfrag], ?_⟩
      rw [hfrag]
      dsimp only
      omega

theorem take {n : Nat} (h : Flow packets l done got inn way)
    (hn : n ≤ (l.tx.out .fmt).toRingbuf.count .fmt) : Flow packets
      { l with
        tx := l.tx.consume .fmt n
        channel := l.channel ++ ((l.tx.out .fmt).toRingbuf.contents .fmt).take n }
      done got inn way where
  packets := h.packets
  tx := Tx.consume_valid h.tx .fmt n
  rb := h.rb
  sent := h.sent
  assembled := h.assembled
  ring := h.ring
  bytes := by
    rw [append_assoc, ← Tx.consume_contents h.tx hn]
    exact h.bytes
  written := h.written
  started := h.started
  offset := h.offset
  ret := h.ret

theorem deliver {n : Nat} {frames : List FmtFrame} (h : Flow packets l done got inn way)
    (hframes : l.channel.take n = frames.flatMap FmtFrame.encode) (hroom : n ≤ l.rb.space .fmt) :
    ∃ way', Flow packets
      { l with
        channel := l.channel.drop n
        rb := push l.rb (l.channel.take n) }
      done got (inn ++ frames) way' := by
  obtain ⟨⟨hvalid, hcontents, -⟩, -⟩ := @OutRing.write_fits .fmt (OutRing.mk l.rb [])
    (l.channel.take n) h.rb ((length_take_le n _).trans hroom)
  have hbytes := h.bytes
  rw [← take_append_drop n l.channel, hframes, append_assoc] at hbytes
  obtain ⟨way', rfl, hway⟩ := FmtFrame.encode_selfDelimiting.exists_append hbytes
  have hall : got ++ (inn ++ frames) ++ way' = got ++ inn ++ (frames ++ way') := by simp
  refine ⟨way', h.packets, h.tx, hvalid, ?_, h.assembled, ?_, ?_, ?_, ?_, h.offset, h.ret⟩
  · rw [hall]
    exact h.sent
  · refine hcontents.trans ?_
    rw [h.ring, hframes, flatMap_append]
  · exact hway
  · rw [hall]
    exact h.written
  · rw [hall]
    exact h.started

theorem eq_nil_of_flatMap {fs : List FmtFrame} (h : fs.flatMap FmtFrame.encode = []) : fs = [] := by
  cases fs with
  | nil => rfl
  | cons f fs =>
    exact absurd (append_eq_nil_iff.mp h).1 (FmtFrame.encode_selfDelimiting.ne_nil f)

theorem copyBuf (h : Flow packets l done got inn way) (hchannel : l.channel = [])
    (hempty : l.rb.count .fmt = 0) : Flow packets
      { l with
        tx := l.tx.setOut .fmt { l.tx.out .fmt with tail := (l.tx.out .fmt).head }
        rb := (l.tx.out .fmt).toRingbuf }
      done got way [] := by
  have hinn : inn = [] := eq_nil_of_flatMap (h.ring.symm.trans (contents_eq_nil hempty))
  subst hinn
  have hall : got ++ way ++ [] = got ++ [] ++ way := by simp
  have hout := l.tx.setOut_self .fmt { l.tx.out .fmt with tail := (l.tx.out .fmt).head }
  have hvalid := (h.tx .fmt).head
  refine ⟨h.packets, ?_, h.tx .fmt, ?_, h.assembled, ?_, ?_, ?_, ?_, h.offset, h.ret⟩
  · intro idx
    by_cases hidx : idx = .fmt
    · subst hidx
      exact ⟨hvalid, hvalid⟩
    · rw [l.tx.setOut_other hidx]
      exact h.tx idx
  · rw [hall]
    exact h.sent
  · have hbytes := h.bytes
    rw [hchannel] at hbytes
    exact hbytes
  · rw [hchannel, hout, contents_eq_nil]
    · rfl
    · have hempty : Ringbuf.Valid .fmt
          { (l.tx.out .fmt).toRingbuf with tail := (l.tx.out .fmt).head } := ⟨hvalid, hvalid⟩
      rw [hempty.count_eq, if_pos le_rfl, Nat.sub_self]
  · rw [hall]
    exact h.written
  · rw [hall]
    exact h.started

theorem read (h : Flow packets l done got inn way) :
    ∃ got' inn', Flow packets l.read done got' inn' way ∧ (l.read.ret = .ok 0 → inn' = []) := by
  have hcount : l.rb.count .fmt = (inn.flatMap FmtFrame.encode).length := by
    rw [← Ringbuf.length_contents, h.ring]
  have hread := readFrames_read h.rb h.ring (congrArg Nat.cast hcount) (Int.le_refl _)
    (fun f hf => h.sent f (mem_append_left _ (mem_append_right _ hf))) h.assembled
  unfold Link.read readFmt
  generalize readFrames .fmt 3 readFmtFrame _ l.si l.rb _ = out at hread
  obtain ⟨more, inn', rfl, hcontents, hsi, hret⟩ := hread.split
  have hall : got ++ more ++ inn' ++ way = got ++ (more ++ inn') ++ way := by simp
  have hgood : ¬out.ret = .ok ebadmsg := by
    rcases hret with ⟨hret, -⟩ | hret <;> rw [hret] <;> decide
  dsimp only
  rw [if_neg hgood]
  refine ⟨got ++ more, inn', ⟨h.packets, h.tx, hread.valid, ?_, ?_, hcontents, h.bytes, ?_, ?_,
    h.offset, ?_⟩, ?_⟩
  · rw [hall]
    exact h.sent
  · rw [Assembly.addAll_append]
    exact hsi
  · rw [hall]
    exact h.written
  · rw [hall]
    exact h.started
  · rcases hret with ⟨hret, -⟩ | hret
    · exact .inl hret
    · exact .inr hret
  · intro hzero
    rcases hret with ⟨-, hnil⟩ | hret
    · exact hnil
    · rw [hret] at hzero
      cases hzero

theorem step {op : Op} (h : ∃ done got inn way, Flow packets l done got inn way)
    (hfits : l.Fits op) (hs : l.step op = some l') :
    ∃ done got inn way, Flow packets l' done got inn way := by
  obtain ⟨done, got, inn, way, h⟩ := h
  cases op with
  | write =>
    obtain ⟨done', way', h'⟩ := h.write hfits hs
    exact ⟨done', got, inn, way', h'⟩
  | take n =>
    obtain ⟨hn, rfl⟩ := Option.ite_some_none_eq_some.mp hs
    exact ⟨done, got, inn, way, h.take hn⟩
  | deliver n frames =>
    obtain ⟨⟨-, hroom⟩, rfl⟩ := Option.ite_some_none_eq_some.mp hs
    obtain ⟨way', h'⟩ := h.deliver hfits hroom
    exact ⟨done, got, inn ++ frames, way', h'⟩
  | copyBuf =>
    cases hs
    exact ⟨done, got, way, [], h.copyBuf hfits.1 hfits.2⟩
  | memory allocs =>
    cases hs
    exact ⟨done, got, inn, way, h.packets, h.tx, h.rb, h.sent, ⟨h.assembled.ok, h.assembled.lists,
      h.assembled.received⟩, h.ring, h.bytes, h.written, h.started, h.offset, h.ret⟩
  | read =>
    cases hs
    obtain ⟨got', inn', h', -⟩ := h.read
    exact ⟨done, got', inn', way, h'⟩

end Flow

/-! ## Runs -/

/-- What the receiver hands up for a packet. -/
def handedUp (skb : Skb) : Packet := .phonet pnFmt skb.data

/-- In every state that is reached by steps that fit, the packets that have been handed up
are the first ones of those that are sent, and all of them when nothing is on its way. No
call of `_read_fmt` fails but for lack of memory, and one that returns `0` has emptied the
in buffer. -/
theorem packets_come_through {init : Link} (hinit : Start packets init)
    (h : Reached step Fits init l) : (∃ k, l.si.received = (packets.take k).map handedUp) ∧
    (l.Idle → l.si.received = packets.map handedUp) ∧ (l.ret = .ok 0 ∨ l.ret = .ok enomem) ∧
    (l.read.ret = .ok 0 → l.read.rb.count .fmt = 0) := by
  have hflow : ∃ done got inn way, Flow packets l done got inn way :=
    h.invariant (P := fun l => ∃ done got inn way, Flow packets l done got inn way)
      ⟨_, _, _, _, hinit.flow⟩ fun _ _ _ => Flow.step
  obtain ⟨done, got, inn, way, hflow⟩ := hflow
  have hreceived := hflow.assembled.received
  refine ⟨?_, fun hidle => ?_, hflow.ret, fun hret => ?_⟩
  · obtain ⟨more, hmore⟩ := (Assembly.empty.addAll got).packets_stay (inn ++ way)
    rw [← Assembly.addAll_append, ← append_assoc, hflow.written] at hmore
    have htake : ((packets.take (Assembly.empty.addAll got).packets.length).map (·.data)) =
        (Assembly.empty.addAll got).packets := by
      have hle : (Assembly.empty.addAll got).packets.length ≤ done.length := by
        have hlen := congrArg length hmore
        rw [length_map, length_append] at hlen
        omega
      rw [hflow.packets, take_append_of_le_length hle, map_take, hmore, take_left]
    refine ⟨(Assembly.empty.addAll got).packets.length, ?_⟩
    rw [hreceived]
    conv => lhs; rw [← htake, map_map]
    rfl
  · have hinn : inn = [] :=
      Flow.eq_nil_of_flatMap (hflow.ring.symm.trans (contents_eq_nil hidle.rb))
    have hway : way = [] := by
      refine Flow.eq_nil_of_flatMap (hflow.bytes.symm.trans ?_)
      rw [hidle.channel, contents_eq_nil hidle.out]
      rfl
    have hwritten := hflow.written
    rw [hinn, hway, append_nil, append_nil] at hwritten
    have hpackets := hflow.packets
    rw [hidle.todo, append_nil] at hpackets
    rw [hreceived, hwritten, hpackets, map_map]
    rfl
  · obtain ⟨got', inn', hflow', hnil⟩ := hflow.read
    have hring := hflow'.ring
    rw [hnil hret] at hring
    rw [← Ringbuf.length_contents, hring]
    rfl

/-- Empty rings at the start of their memory. -/
def ofPackets (packets : List Skb) : Link :=
  ⟨.ofFmt 0 0, packets, [], ⟨fun _ => 0, 0, 0⟩, .init, .ok 0⟩

theorem ofPackets_start (packets : List Skb) : Start packets (ofPackets packets) where
  todo := rfl
  tx := Tx.ofFmt_valid (by decide) (by decide)
  out := show circCnt 0 0 0x1000 = 0 by decide
  frag := rfl
  channel := rfl
  rb := ⟨show 0 < 0x1000 by decide, show 0 < 0x1000 by decide⟩
  inbuf := show circCnt 0 0 0x1000 = 0 by decide
  lists := rfl
  received := rfl
  ret := rfl

/-- The first packet leaves little space in the ring. -/
def threePackets : List Skb :=
  [⟨2, .phonet 0, replicate 4080 0, 0, 0, by rw [length_replicate]; omega⟩, .sixBytes,
    ⟨3, .phonet 0, [7], 0, 0, by decide⟩]

/-- The second packet is cut. What is in the ring is copied; then the rest of it and the third
packet are taken and delivered. -/
theorem packets_come_through_cut : ∃ l, Reached step Fits (ofPackets threePackets) l ∧
    l.si.received = threePackets.map handedUp := by
  obtain ⟨l, h, htodo, hout, hchannel, hrb⟩ : ∃ l, Reached step Fits (ofPackets threePackets) l ∧
      l.todo.length = 0 ∧ (l.tx.out .fmt).toRingbuf.count .fmt = 0 ∧ l.channel = [] ∧
      l.rb.count .fmt = 0 :=
    Reached.exists_of_checked [.write, .write, .copyBuf, .read, .write, .write, .take 12,
      .deliver 6 [⟨1, [6], by decide⟩], .deliver 6 [⟨0, [7], by decide⟩], .read]
      (by decide +kernel)
  exact ⟨l, h, (packets_come_through (ofPackets_start _) h).2.1
    ⟨length_eq_zero_iff.mp htodo, hout, hchannel, hrb⟩⟩

/-- A packet that is longer than the ring. -/
def longPacket : Skb :=
  ⟨1, .phonet 0, replicate 5000 0, 0, 0, by rw [length_replicate]; omega⟩

/-- A packet without data. -/
def emptyPacket : Skb := ⟨1, .phonet 0, [], 0, 0, by decide⟩

/-- The first fragment of the long packet fills the ring, and the receiver reaches `BUG()`.
Of the empty packet nothing is sent. -/
theorem packets_get_lost :
    ([Op.write, .copyBuf, .read].foldlM step (ofPackets [longPacket])).map (·.ret) =
      some (.error .bug) ∧ ∃ l, [Op.write].foldlM step (ofPackets [emptyPacket]) = some l ∧ l.Idle ∧
      l.si.received ≠ [emptyPacket].map handedUp := by
  refine ⟨by decide +kernel, _, rfl, ⟨rfl, ?_, rfl, ?_⟩, ?_⟩ <;> decide +kernel

end Link

end AndroidKernel.Sipc
