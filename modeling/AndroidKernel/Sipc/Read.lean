import AndroidKernel.Lib.Keyed
import AndroidKernel.Sipc.Write

/-!
# Receiving from the modem

`sipc_read` goes through the in buffers and hands up the packets of their frames. The
lengths in the headers are the modem's. Where the code would pass one that is negative or too
large to `skb_put`, copy more than there is room for, or reach `BUG()`, the model stops with a
`Fault`.

Which allocations succeed is part of the state. A block of fragments takes a page, and
there are fewer than `2 ^ 19` of them. The phonet header of a packet, statistics and wake
locks are left out.
-/

namespace AndroidKernel.Sipc

/-- Where a call goes wrong. -/
inductive Fault where
  /-- `BUG()` in `_prepare_frag_block` -/
  | bug
  /-- a negative length for `skb_put` -/
  | negative
  /-- more bytes than there is room for, or bytes in front of a buffer -/
  | overrun
  /-- `skb_put` for the head of an empty list -/
  | noSkb
  /-- `_find_frag_list` runs off its list -/
  | noList
  deriving DecidableEq

/-- `FRAG_BLOCK_MAX`. -/
def fragBlockMax : Nat := 4080

/-- The blocks that there can be. -/
def fragBlocks : Nat := 2 ^ 19

/-- `RFS_MTU`. -/
def rfsMtu : Int := 4032

/-- `struct frag_block`, with what `buf` has in front of `ptr`, which is `len` bytes behind its
start. -/
structure FragBlock where
  len : Nat
  data : List Byte

/-- `struct frag_list`. -/
structure FragList where
  msgId : Nat
  len : Nat
  blocks : List FragBlock

/-- `struct frag_head`. -/
structure FragHead where
  head : List FragList
  bitmap : Nat → Bool

/-- What is handed up: with `_phonet_rx`, or to a network device. -/
inductive Packet where
  | phonet (res : Nat) (data : List Byte)
  | ip (pdp : Nat) (data : List Byte)
  deriving DecidableEq

/-- The part of `struct sipc` that receiving uses besides the rings, and the allocations to
come; after those all succeed. -/
structure Si where
  frag : FragHead
  pdpDevs : Nat → Bool
  allocs : List Bool
  rfsRx : List (List Byte)
  received : List Packet

/-- Nothing has been received. -/
def Si.init : Si := ⟨⟨[], fun _ => false⟩, fun _ => false, [], [], []⟩

/-- What a function that reads a frame leaves, and what it returns. -/
structure Read where
  rb : Ringbuf
  si : Si
  ret : Except Fault Int

/-! ## Buffers -/

variable (si : Si) (rb : Ringbuf) (len : Int)

/-- An allocation. -/
def Si.alloc : Bool × Si :=
  match si.allocs with
  | [] => (true, si)
  | ok :: rest => (ok, { si with allocs := rest })

/-- `skb_put` of `len` bytes with `room` left, then `__read` of `readLen` bytes to them. -/
def fill (idx : IpcIdx) (rb : Ringbuf) (room len readLen : Int) :
    Ringbuf × Except Fault (List Byte) :=
  if len < 0 then (rb, .error .negative)
  else if room < len then (rb, .error .overrun)
  else
    let rd := rb.read idx (ulong readLen)
    (rd.1, if room < rd.2.length then .error .overrun else .ok rd.2)

/-- `_phonet_rx`. -/
def Si.phonetRx (data : List Byte) (res : Nat) : Si :=
  { si with received := si.received ++ [.phonet res data] }

/-! ## Raw packets -/

/-- `_read_pn`. -/
def readPn (res : Nat) : Read :=
  let readLen := long (len + 1)
  let a := si.alloc
  if a.1 then
    let rd := fill .raw rb (ulong (readLen + 7) - 7) len readLen
    match rd.2 with
    | .error e => ⟨rd.1, a.2, .error e⟩
    | .ok bytes =>
      if (bytes.length : Int) ≠ readLen then ⟨rd.1, a.2, .ok ebadmsg⟩
      else ⟨rd.1, a.2.phonetRx (bytes.take len.toNat) res, .ok bytes.length⟩
  else ⟨rb, a.2, .ok enomem⟩

/-- `PN_PDP_START`. -/
def pnPdpStart : Nat := 0x2A

/-- `PN_PDP_END`. -/
def pnPdpEnd : Nat := 0x38

/-- `_read_pdp`. What is for a device that is not there is dropped. -/
def readPdp (res : Nat) : Read :=
  let readLen := long (len + 1)
  let pdp := res - pnPdpStart
  if si.pdpDevs pdp then
    let a := si.alloc
    if a.1 then
      let rd := fill .raw rb (ulong readLen) len readLen
      match rd.2 with
      | .error e => ⟨rd.1, a.2, .error e⟩
      | .ok bytes =>
        if (bytes.length : Int) ≠ readLen then ⟨rd.1, a.2, .ok ebadmsg⟩
        else
          ⟨rd.1, { a.2 with received := a.2.received ++ [.ip pdp (bytes.take len.toNat)] },
            .ok bytes.length⟩
    else ⟨rb, a.2, .ok enomem⟩
  else
    let rd := rb.read .raw (ulong readLen)
    ⟨rd.1, si, .ok rd.2.length⟩

/-- The body of `_read_raw` after the start of a frame. -/
def readRawFrame (hdr : List Byte) : Read :=
  let res := 0x20 ||| (hdr.getD 4 0).toNat
  let dataLen := long ((Bytes.value (hdr.take 4) : Int) - 6)
  if pnPdpStart ≤ res ∧ res ≤ pnPdpEnd then readPdp si rb dataLen res
  else readPn si rb dataLen res

/-! ## Remote file system packets -/

/-- `_alloc_rfs`: the number of buffers, or `none` if there is no memory. Each turn takes
something away from `len`. -/
def allocRfs : Nat → Si → Int → Option Nat × Si
  | 0, si, _ => (some 0, si)
  | fuel + 1, si, len =>
    if 0 < len then
      let a := si.alloc
      if a.1 then
        let rest := allocRfs fuel a.2 (long (len - rfsMtu))
        (rest.1.map (· + 1), rest.2)
      else (none, a.2)
    else (some 0, si)

/-- `_read_rfs_rb`, from a buffer on in which there is `room`: what is read into the
buffers, or `none` for `-EBADMSG`. -/
def readRfsRb : Nat → Int → Ringbuf → Int → Ringbuf × Except Fault (Option (List (List Byte)))
  | 0, _, rb, _ => (rb, .ok (some []))
  | n + 1, room, rb, len =>
    let rd := if len < room then len else room
    let f := fill .rfs rb room rd rd
    match f.2 with
    | .error e => (f.1, .error e)
    | .ok bytes =>
      if (bytes.length : Int) ≠ rd then (f.1, .ok none)
      else
        let rest := readRfsRb n rfsMtu f.1 (len - bytes.length)
        (rest.1, rest.2.map fun skbs => skbs.map (bytes :: ·))

/-- `_read_rfs_data`. The first buffer begins with the header. -/
def readRfsData (hdr : List Byte) : Read :=
  let a := allocRfs (long (len + 6)).toNat si (long (len + 6))
  match a.1 with
  | none => ⟨rb, a.2, .ok enomem⟩
  | some 0 => ⟨rb, a.2, .error .noSkb⟩
  | some (n + 1) =>
    let rd := readRfsRb (n + 1) (rfsMtu - 6) rb len
    match rd.2 with
    | .error e => ⟨rd.1, a.2, .error e⟩
    | .ok none => ⟨rd.1, a.2, .ok ebadmsg⟩
    | .ok (some skbs) =>
      let «end» := rd.1.read .rfs 1
      ⟨«end».1,
        { a.2 with rfsRx := a.2.rfsRx ++ (hdr ++ skbs.headD []) :: skbs.tail },
        (.ok ((skbs.map List.length).sum + «end».2.length : Nat))⟩

/-- The body of `_read_rfs` after the start of a frame. -/
def readRfsFrame (hdr : List Byte) : Read :=
  readRfsData si rb (long ((Bytes.value (hdr.take 4) : Int) - 6)) hdr

/-! ## Formatted packets -/

/-- `_find_frag_list`. -/
def FragHead.find (fh : FragHead) (msgId : Nat) : Except Fault (Option FragList) :=
  if fh.bitmap msgId then
    match fh.head.find? (·.msgId = msgId) with
    | some fl => .ok (some fl)
    | none => .error .noList
  else .ok none

/-- `_destroy_frag_list`. -/
def FragHead.destroy (fh : FragHead) (msgId : Nat) : FragHead where
  head := fh.head.eraseP (·.msgId = msgId)
  bitmap := Function.update fh.bitmap msgId false

/-- A list takes the place of the one with its `msg_id`. -/
def FragHead.set (fh : FragHead) (fl : FragList) : FragHead :=
  { fh with head := Keyed.replace FragList.msgId fl fh.head }

def FragHead.blockCount (fh : FragHead) : Nat := (fh.head.map (·.blocks.length)).sum

namespace Si

variable (si : Si) (msgId : Nat)

def destroyFragList : Si := { si with frag := si.frag.destroy msgId }

/-- `_destroy_frag_list` for a list that may not be there. -/
def destroyFound : Option FragList → Si
  | some fl => si.destroyFragList fl.msgId
  | none => si

/-- `_create_frag_list`. -/
def createFragList : Option FragList × Si :=
  let si := if si.frag.bitmap msgId then si.destroyFragList msgId else si
  let a := si.alloc
  if a.1 then
    let fl : FragList := ⟨msgId, 0, []⟩
    (some fl,
      { a.2 with
        frag := ⟨fl :: a.2.frag.head, Function.update a.2.frag.bitmap msgId true⟩ })
  else (none, a.2)

/-- The list for a fragment, which is created if it is not there. -/
def fragListOf : Except Fault (Option FragList × Si) :=
  match si.frag.find msgId with
  | .error e => .error e
  | .ok (some fl) => .ok (some fl, si)
  | .ok none => .ok (si.createFragList msgId)

/-- `_create_frag_block`. -/
def createFragBlock (fl : FragList) : Option FragList × Si :=
  let a := si.alloc
  if a.1 ∧ a.2.frag.blockCount < fragBlocks then
    (some { fl with blocks := fl.blocks ++ [⟨0, []⟩] }, a.2)
  else (none, a.2)

/-- `_prepare_frag_block`; the block is the last one of the list. -/
def prepareFragBlock (fl : FragList) (size : Int) : Except Fault (Option FragList × Si) :=
  if fragBlockMax < ulong size then .error .bug
  else
    match fl.blocks.getLast? with
    | none => .ok (si.createFragBlock fl)
    | some fb =>
      if ulong ((fragBlockMax : Int) - fb.len) < ulong size then .ok (si.createFragBlock fl)
      else .ok (some fl, si)

end Si

/-- `control & FMT_ID_MASK`. -/
def msgIdOf (control : Byte) : Nat := control.toNat &&& fmtIdMask

variable (si : Si) (inbuf : Nat) (rb : Ringbuf)

/-- The last steps of `_read_fmt_frag`: `bytes` have been read to `ptr`, and `ptr` and `len` go on
by `dataLen`. -/
def FragBlock.add (fb : FragBlock) (bytes : List Byte) (dataLen : Int) : FragBlock where
  len := ulong (fb.len + dataLen)
  data := (fb.data ++ bytes).take (fb.data.length + dataLen).toNat

/-- `_read_fmt_frag` after `_prepare_frag_block`. -/
def readFragBlock (fl : FragList) (dataLen : Int) : Read :=
  let fb := fl.blocks.getLastD ⟨0, []⟩
  let rd := rb.read .fmt (ulong (dataLen + 1))
  if rd.2 ≠ [] ∧ ¬(0 ≤ long fb.len ∧ long fb.len + rd.2.length ≤ fragBlockMax) then
    ⟨rd.1, si, .error .overrun⟩
  else if (rd.2.length : Int) ≠ dataLen + 1 then
    ⟨rd.1, si.destroyFragList fl.msgId, .ok ebadmsg⟩
  else
    ⟨rd.1,
      { si with
        frag := si.frag.set
          { fl with
            len := ulong (fl.len + dataLen)
            blocks := fl.blocks.dropLast ++ [fb.add rd.2 dataLen] } },
      .ok rd.2.length⟩

/-- `_read_fmt_frag` with the list of the packet. -/
def readFragOf (fl : FragList) (dataLen : Int) : Read :=
  match si.prepareFragBlock fl (dataLen + 1) with
  | .error e => ⟨rb, si, .error e⟩
  | .ok (none, si) => ⟨rb, if fl.len = 0 then si.destroyFragList fl.msgId else si, .ok enomem⟩
  | .ok (some fl, si) => readFragBlock si rb fl dataLen

/-- `_read_fmt_frag`. -/
def readFmtFrag (control : Byte) (dataLen : Int) : Read :=
  match si.fragListOf (msgIdOf control) with
  | .error e => ⟨rb, si, .error e⟩
  | .ok (none, si) => ⟨rb, si, .ok enomem⟩
  | .ok (some fl, si) => readFragOf si rb fl dataLen

/-- `_fill_skb`: the data, and the room that is left. -/
def fillSkb (room : Int) : List FragBlock → Except Fault (List Byte × Int)
  | [] => .ok ([], room)
  | fb :: rest =>
    if room < fb.len ∨ fragBlockMax < fb.len then .error .overrun
    else (fillSkb (room - fb.len) rest).map fun r => (fb.data ++ r.1, r.2)

/-- `PN_FMT`. -/
def pnFmt : Nat := 0x01

/-- `_read_fmt_last` with the list of the packet's fragments, if there is one. -/
def readLastOf (fl : Option FragList) (dataLen : Int) : Read :=
  let totalLen := long (dataLen + (fl.map (·.len)).getD 0)
  let a := si.alloc
  if a.1 then
    match fillSkb (ulong (totalLen + 7 + 1) - 7) ((fl.map (·.blocks)).getD []) with
    | .error e => ⟨rb, a.2, .error e⟩
    | .ok (data, room) =>
      let si := a.2.destroyFound fl
      let rd := fill .fmt rb room dataLen (dataLen + 1)
      match rd.2 with
      | .error e => ⟨rd.1, si, .error e⟩
      | .ok bytes =>
        if (bytes.length : Int) ≠ dataLen + 1 then ⟨rd.1, si, .ok ebadmsg⟩
        else
          ⟨rd.1, si.phonetRx (data ++ bytes.take dataLen.toNat) pnFmt,
            .ok bytes.length⟩
  else ⟨rb, a.2, .ok enomem⟩

/-- `_read_fmt_last`. -/
def readFmtLast (control : Byte) (dataLen : Int) : Read :=
  match si.frag.find (msgIdOf control) with
  | .error e => ⟨rb, si, .error e⟩
  | .ok fl => readLastOf si rb fl dataLen

/-- The body of `_read_fmt` after the start of a frame. -/
def readFmtFrame (hdr : List Byte) : Read :=
  let control := hdr.getD 2 0
  let dataLen : Int := (Bytes.value (hdr.take 2) : Int) - 3
  if control.toNat &&& fmtMbMask = 0 then readFmtLast si rb control dataLen
  else readFmtFrag si rb control dataLen

/-! ## The readers -/

/-- The loop of `_read_fmt`, `_read_raw` and `_read_rfs`: a frame starts with a mark and a
header of `hdrLen` bytes. A turn that does not end it takes them away from `inbuf`. -/
def readFrames (idx : IpcIdx) (hdrLen : Nat) (readFrame : Si → Ringbuf → List Byte → Read) :
    Nat → Si → Ringbuf → Int → Read
  | 0, si, rb, _ => ⟨rb, si, .ok 0⟩
  | fuel + 1, si, rb, inbuf =>
    if inbuf ≤ 0 then ⟨rb, si, .ok 0⟩
    else
      let rd := rb.read idx (1 + hdrLen)
      if rd.2.length < 1 + hdrLen ∨ rd.2.head? ≠ some hdlcStart then ⟨rd.1, si, .ok ebadmsg⟩
      else
        let out := readFrame si rd.1 rd.2.tail
        match out.ret with
        | .error e => ⟨out.rb, out.si, .error e⟩
        | .ok r =>
          if r < 0 then
            -- the frame will be read again
            ⟨if r = enomem then { out.rb with tail := rb.tail } else out.rb, out.si, .ok r⟩
          else readFrames idx hdrLen readFrame fuel out.si out.rb (inbuf - (1 + hdrLen) - r)

/-- `_read_fmt`. -/
def readFmt : Read :=
  readFrames .fmt 3 readFmtFrame inbuf si rb inbuf

/-- `_read_raw`. -/
def readRaw : Read :=
  readFrames .raw 6 readRawFrame inbuf si rb inbuf

/-- `_read_rfs`. -/
def readRfs : Read :=
  readFrames .rfs 6 readRfsFrame inbuf si rb inbuf

/-- `rb_read`. -/
def rbRead : IpcIdx → Read
  | .fmt => readFmt si inbuf rb
  | .raw => readRaw si inbuf rb
  | .rfs => readRfs si inbuf rb

/-- The part of `struct sipc` that receiving uses. -/
structure Rx where
  ring : IpcIdx → Ringbuf
  si : Si

namespace Rx

def put (rx : Rx) (idx : IpcIdx) (rb : Ringbuf) (si : Si) : Rx where
  ring := Function.update rx.ring idx rb
  si := si

/-- `purge_buffer`. -/
def purgeBuffer (rb : Ringbuf) : Ringbuf := { rb with tail := rb.head }

/-- What the loop of `sipc_read` leaves: `res`, and the rings that were read, with the result of
the reader. -/
structure Loop where
  rx : Rx
  res : Nat
  reads : List (IpcIdx × Int)
  ret : Except Fault Int

/-- The loop of `sipc_read`. -/
def readRings (mailbox : Nat) : List IpcIdx → Rx → Nat → Int → Loop
  | [], rx, res, r => ⟨rx, res, [], .ok r⟩
  | idx :: rest, rx, res, r =>
    let rb := rx.ring idx
    let inbuf := circCnt rb.head rb.tail idx.size
    if inbuf = 0 then readRings mailbox rest rx res r
    else
      let out := rbRead rx.si inbuf rb idx
      match out.ret with
      | .error e => ⟨rx.put idx out.rb out.si, res, [], .error e⟩
      | .ok r =>
        if r < 0 then
          ⟨rx.put idx (if r = ebadmsg then purgeBuffer out.rb else out.rb) out.si, res, [(idx, r)],
            .ok r⟩
        else
          let l := readRings mailbox rest (rx.put idx out.rb out.si)
            (if mailbox &&& (mbData idx).maskReqAck ≠ 0 then (mbData idx).maskResAck else res) r
          { l with reads := (idx, r) :: l.reads }

/-- What `sipc_read` returns: the mailbox word that it sends and `*cond`, and what the readers have
returned. -/
structure ReadResult where
  ret : Except Fault Int
  mailbox : Option Nat
  cond : Option Nat
  reads : List (IpcIdx × Int)

/-- `sipc_read`. -/
def sipcRead (rx : Rx) (auth : Int) (mailbox : Nat) : Rx × ReadResult :=
  if auth ≠ 0 then (rx, ⟨.ok auth, none, none, []⟩)
  else
    let l := readRings mailbox [.fmt, .raw, .rfs] rx 0 0
    match l.ret with
    | .error e => (l.rx, ⟨.error e, none, none, l.reads⟩)
    | .ok r =>
      (l.rx, ⟨.ok r, if l.res = 0 then none else some (mbDataWord l.res),
        some l.rx.si.rfsRx.length, l.reads⟩)

/-- `PN_RFS`. -/
def pnRfs : Nat := 0x41

/-- `sipc_rx`, which hands up one packet more than `RFS_TX_RATE` at a time. -/
def sipcRx (rx : Rx) : Rx × Nat :=
  ({ rx with
     si := { rx.si with
       rfsRx := rx.si.rfsRx.drop 5
       received := rx.si.received ++ (rx.si.rfsRx.take 5).map (.phonet pnRfs) } },
    (rx.si.rfsRx.drop 5).length)

end Rx

end AndroidKernel.Sipc
