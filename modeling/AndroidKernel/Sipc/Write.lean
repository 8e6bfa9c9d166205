import AndroidKernel.Lib.Bytes
import AndroidKernel.Lib.PrefixCode
import AndroidKernel.Sipc.Ring

/-!
# Sending to the modem

`sipc_write` takes packets off a queue and appends them to the out buffers. A raw or
remote file system packet is written whole or not at all. A formatted packet is cut into
frames by the space that there is, and where it was cut is remembered for the next call.
The modem is told of the data by a mailbox word.

The semaphore of the shared memory comes in through the result of `_get_auth`; how it is
released, statistics and the flow control of the network devices are left out.
-/

namespace AndroidKernel.Sipc

/-! ## Error numbers -/

def enospc : Int := -28
def einval : Int := -22
def enomem : Int := -12
def ebadmsg : Int := -74

/-! ## Frames -/

/-- `HDLC_START`. -/
def hdlcStart : Byte := 0x7F

/-- `HDLC_END`. -/
def hdlcEnd : Byte := 0x7E

/-- `FMT_MB_MASK`, the bit of a frame that is followed by more of the packet. -/
def fmtMbMask : Nat := 0x80

/-- `FMT_ID_MASK`. -/
def fmtIdMask : Nat := 0x7F

/-- `FMT_TX_MIN`. -/
def fmtTxMin : Int := 5

/-- What `_write_fmt_buf` puts into `frag_buf`: `struct fmt_hdr` and data, between the
marks. -/
def fmtBuf (control : Byte) (data : List Byte) : List Byte :=
  hdlcStart :: (Bytes.le 2 (3 + data.length) ++ control :: (data ++ [hdlcEnd]))

/-- `struct raw_hdr`, as `_set_raw_hdr` fills it in. -/
def rawHdr (res len : Nat) : List Byte :=
  Bytes.le 4 len ++ [UInt8.ofNat (res &&& 0x1F), 0]

/-! ## The mailbox -/

/-- `struct mailbox_data`. -/
structure MailboxData where
  maskSend : Nat
  maskReqAck : Nat
  maskResAck : Nat

/-- `mb_data`. -/
def mbData : IpcIdx → MailboxData
  | .fmt => ⟨0x0002, 0x0020, 0x0008⟩
  | .raw => ⟨0x0001, 0x0010, 0x0004⟩
  | .rfs => ⟨0x0100, 0x0400, 0x0200⟩

/-- `MB_DATA`. -/
def mbDataWord (x : Nat) : Nat := 0x0080 ||| x

/-! ## Packets -/

/-- Where a packet comes from: a phonet socket, with `pn_res`, or a network device of a
packet data channel. -/
inductive Protocol where
  | phonet (pnRes : Byte)
  | pdp (channel : Nat)

/-- A `struct sk_buff` as `_write` gets it, without the phonet header. The memory of one
is a part of the kernel's. -/
structure Skb where
  id : Nat
  protocol : Protocol
  data : List Byte
  headroom : Nat
  tailroom : Nat
  short : data.length < 2 ^ 31

/-- `pn_res`, or `PN_PDP(channel)`. -/
def Skb.res (skb : Skb) : Nat :=
  match skb.protocol with
  | .phonet pnRes => pnRes.toNat
  | .pdp channel => 0x20 ||| (channel + 10 - 1)

/-- `res_to_ridx` with the check that it is a ring. -/
def resToRidx (res : Nat) : Option IpcIdx :=
  match res >>> 5 with
  | 0 => some .fmt
  | 1 => some .raw
  | 2 => some .rfs
  | _ => none

/-- `struct frag_info`: the packet that has been cut, and how much of it is sent. -/
structure FragInfo where
  skb : Option Nat
  offset : Nat

/-- The part of `struct sipc` that sending uses. -/
structure Tx where
  out : IpcIdx → OutRing
  frag : FragInfo

/-! ## Writing a packet -/

variable (rb : OutRing)

/-- `_write_raw_buf`. -/
def writeRawBuf (res : Nat) (skb : Skb) : OutRing × Nat :=
  let start := rb.write .raw [hdlcStart]
  let hdr := start.1.write .raw (rawHdr res (skb.data.length + 6))
  let data := hdr.1.write .raw skb.data
  let «end» := data.1.write .raw [hdlcEnd]
  («end».1, start.2 + hdr.2 + data.2 + «end».2)

/-- `_write_raw_skb`: the frame is completed in the packet's own memory. -/
def writeRawSkb (res : Nat) (skb : Skb) : OutRing × Nat :=
  rb.write .raw (hdlcStart :: (rawHdr res (skb.data.length + 6) ++ (skb.data ++ [hdlcEnd])))

/-- `_write_raw`. -/
def writeRaw (skb : Skb) (res : Nat) : OutRing × Int :=
  if circSpace rb.head rb.tail IpcIdx.raw.size < ulong (skb.data.length + 6 + 1 + 1) then
    (rb, enospc)
  else
    let written :=
      if 6 + 1 < skb.headroom ∧ 1 < skb.tailroom then writeRawSkb rb res skb
      else writeRawBuf rb res skb
    (written.1, written.2)

/-- `_write_rfs_buf`. -/
def writeRfsBuf (skb : Skb) : OutRing × Nat :=
  let start := rb.write .rfs [hdlcStart]
  let data := start.1.write .rfs skb.data
  let «end» := data.1.write .rfs [hdlcEnd]
  («end».1, start.2 + data.2 + «end».2)

/-- `_write_rfs_skb`. -/
def writeRfsSkb (skb : Skb) : OutRing × Nat :=
  rb.write .rfs (hdlcStart :: (skb.data ++ [hdlcEnd]))

/-- `_write_rfs`. -/
def writeRfs (skb : Skb) : OutRing × Int :=
  if circSpace rb.head rb.tail IpcIdx.rfs.size < ulong (skb.data.length + 1 + 1) then (rb, enospc)
  else
    let written :=
      if 1 < skb.headroom ∧ 1 < skb.tailroom then writeRfsSkb rb skb else writeRfsBuf rb skb
    (written.1, written.2)

/-- What the loop of `_write_fmt` leaves. -/
structure FmtLoop where
  rb : OutRing
  offset : Nat
  ret : Int

/-- The loop of `_write_fmt`. A turn that does not end it sends something of what
remains. -/
def writeFmtLoop (data : List Byte) : Nat → OutRing → Nat → Nat → FmtLoop
  | 0, rb, offset, len => ⟨rb, offset, len⟩
  | fuel + 1, rb, offset, len =>
    let remain : Int := data.length - offset
    if remain ≤ 0 then ⟨rb, offset, len⟩
    else
      let space : Int := circSpace rb.head rb.tail IpcIdx.fmt.size - (3 + 1 + 1)
      if space < fmtTxMin then ⟨rb, offset, enospc⟩
      else
        -- multiple, single or last frame
        let wlen := if space < remain then space else remain
        let control : Byte := if space < remain then 0x81 else if offset = 0 then 0x00 else 0x01
        let written := rb.write .fmt (fmtBuf control ((data.drop offset).take wlen.toNat))
        let sent := written.2 - (1 + 3 + 1)
        writeFmtLoop data fuel written.1 (offset + sent) (len + written.2)

namespace Tx

variable (tx : Tx)

/-- Where `_write_fmt` goes on with a packet; a new one is sent from its start. -/
def fmtOffset (skb : Skb) : Nat :=
  if tx.frag.skb = some skb.id then tx.frag.offset else 0

def fmtLoop (skb : Skb) : FmtLoop :=
  writeFmtLoop skb.data skb.data.length (tx.out .fmt) (tx.fmtOffset skb) 0

/-- `_write_fmt`. -/
def writeFmt (skb : Skb) : Tx × Int :=
  ({ out := Function.update tx.out .fmt (tx.fmtLoop skb).rb
     frag := if 0 < (tx.fmtLoop skb).ret then ⟨none, 0⟩
       else ⟨some skb.id, (tx.fmtLoop skb).offset⟩ },
   (tx.fmtLoop skb).ret)

def setOut (idx : IpcIdx) (rb : OutRing) : Tx :=
  { tx with out := Function.update tx.out idx rb }

/-- `_write` for a ring. -/
def writeRing (skb : Skb) : IpcIdx → Tx × Int
  | .fmt => tx.writeFmt skb
  | .raw =>
    let written := writeRaw (tx.out .raw) skb skb.res
    (tx.setOut .raw written.1, written.2)
  | .rfs =>
    let written := writeRfs (tx.out .rfs) skb
    (tx.setOut .rfs written.1, written.2)

/-- `_write` and `_write_pn`. -/
def write (skb : Skb) (mailbox : Nat) : Tx × Int × Nat :=
  match resToRidx skb.res with
  | none => (tx, einval, mailbox)
  | some idx =>
    let written := tx.writeRing skb idx
    (written.1, written.2,
      if 0 < written.2 then mailbox ||| (mbData idx).maskSend else mailbox)

/-- What the loop of `sipc_write` leaves; `stopped` is the packet that it could not write. -/
structure Loop where
  tx : Tx
  mailbox : Nat
  ret : Int
  stopped : Option Skb
  rest : List Skb

/-- The loop of `sipc_write`. -/
def writeQueue (tx : Tx) (mailbox : Nat) (ret : Int) : List Skb → Loop
  | [] => ⟨tx, mailbox, ret, none, []⟩
  | skb :: rest =>
    let written := tx.write skb mailbox
    if written.2.1 < 0 then ⟨written.1, written.2.2, written.2.1, some skb, rest⟩
    else writeQueue written.1 written.2.2 written.2.1 rest

/-- What `sipc_write` returns: the mailbox word that it sends, and the queue. -/
structure WriteResult where
  ret : Int
  mailbox : Option Nat
  queue : List Skb

/-- `sipc_write`. -/
def sipcWrite (auth : Int) (queue : List Skb) : Tx × WriteResult :=
  if auth ≠ 0 then (tx, ⟨auth, none, queue⟩)
  else
    let l := tx.writeQueue 0 0 queue
    let left :=
      match l.stopped with
      | some skb => if l.ret = enospc then skb :: l.rest else l.rest
      | none => l.rest
    (l.tx, ⟨l.ret, if l.mailbox = 0 then none else some (mbDataWord l.mailbox), left⟩)

/-- `sipc_whitelist`: the frame is written without looking whether there is space. -/
def sipcWhitelist (auth : Int) (buf : List Byte) : Tx × Int × Option Nat :=
  if auth ≠ 0 then (tx, auth, none)
  else
    let written := (tx.out .fmt).write .fmt buf
    (tx.setOut .fmt written.1, written.2, some (mbDataWord (mbData .fmt).maskSend))

end Tx

end AndroidKernel.Sipc
