import AndroidKernel.Logger.Queue

/-!
# The ring buffer behaves as the queue

Position `pos entries i` of the stream of all bytes ever committed is where entry `i`
starts; the offsets of the code are such positions modulo the size of the log. Between
the position of a cursor and the end of the stream the bytes are still in the ring. A
write moves every cursor out of its way before it starts, so that all that it writes lies
before every cursor, whether the write succeeds or not.
-/

namespace AndroidKernel.Logger

open List

/-! ## Positions -/

/-- Where an entry starts in the stream of all bytes. -/
def pos (entries : List Entry) (i : Nat) : Nat := (entries.take i).flatten.length

variable {entries : List Entry} {e : Entry} {i j k n size off : Nat} {buffer : Nat → Byte}

theorem pos_add_unread (entries : List Entry) (i : Nat) :
    pos entries i + unread entries i = entries.flatten.length := by
  rw [pos, unread, ← length_append, ← flatten_append, take_append_drop]

theorem pos_succ (h : entries[i]? = some e) : pos entries (i + 1) = pos entries i + e.length := by
  simp [pos, take_add_one, h]

theorem unread_length (entries : List Entry) : unread entries entries.length = 0 := by
  simp [unread]

/-- There is an entry where something is unread. -/
theorem exists_entry (h : 0 < unread entries i) : ∃ e, entries[i]? = some e := by
  rcases Nat.lt_or_ge i entries.length with hlt | hge
  · exact ⟨_, getElem?_eq_getElem hlt⟩
  · rw [unread, drop_of_length_le hge] at h
    simp at h

/-- An entry is in the stream from its position on. -/
theorem drop_pos (h : entries[i]? = some e) :
    entries.flatten.drop (pos entries i) = e ++ (entries.drop (i + 1)).flatten := by
  have hlt := (List.getElem?_eq_some_iff.mp h).1
  have hdrop : entries.drop i = e :: entries.drop (i + 1) := by
    rw [drop_eq_getElem_cons hlt, (List.getElem?_eq_some_iff.mp h).2]
  have hsplit : entries.flatten = (entries.take i).flatten ++ (entries.drop i).flatten := by
    rw [← flatten_append, take_append_drop]
  rw [hsplit, pos, drop_left, hdrop, flatten_cons]

/-! ## Entries -/

/-- An entry as a write makes it: the first two bytes are the length of its payload. -/
structure WellFormed (e : Entry) : Prop where
  lt : headerSize < e.length
  le : e.length ≤ entryMaxLen
  len : ∃ lo hi : Byte, e[0]? = some lo ∧ e[1]? = some hi ∧
    e.length = headerSize + (lo.toNat + 256 * hi.toNat)

theorem length_header (header : Header) (n : Nat) : (header.bytes n).length = headerSize := by
  simp [Header.bytes, headerSize]

theorem length_entryOf (header : Header) (iov : List Segment) :
    (entryOf header iov).length = headerSize + Log.payloadLen iov := by
  have hle : Log.payloadLen iov ≤ (iov.flatMap fun seg => seg.data).length := by
    rw [length_flatMap]
    exact Nat.min_le_left _ _
  rw [entryOf, length_append, length_header, length_take, Nat.min_eq_left hle]

theorem entryOf_wellFormed (header : Header) {iov : List Segment} (h : Log.payloadLen iov ≠ 0) :
    WellFormed (entryOf header iov) := by
  have hle : Log.payloadLen iov ≤ entryMaxPayload := Nat.min_le_right _ _
  have hlen := length_entryOf header iov
  have hmax : entryMaxPayload = 4076 := rfl
  refine ⟨by omega, by unfold entryMaxLen headerSize at *; omega, ?_⟩
  refine ⟨.ofNat (Log.payloadLen iov % 256), .ofNat (Log.payloadLen iov / 256 % 256), rfl, rfl, ?_⟩
  rw [UInt8.toNat_ofNat', UInt8.toNat_ofNat']
  omega

/-! ## Cursors -/

/-- An offset of the code stands for the cursor before entry `i`: what follows it is
less than the size of the log and is in the ring. -/
structure Cursor (size : Nat) (buffer : Nat → Byte) (entries : List Entry) (i off : Nat) :
    Prop where
  le : i ≤ entries.length
  off_eq : off = pos entries i % size
  room : unread entries i < size
  holds : Ring.Holds size buffer entries.flatten (pos entries i) entries.flatten.length

/-- A later cursor. -/
theorem Cursor.later (h : Cursor size buffer entries i off) (hij : pos entries i ≤ pos entries j)
    (hj : j ≤ entries.length) : Cursor size buffer entries j (pos entries j % size) := by
  have hi := pos_add_unread entries i
  have hj' := pos_add_unread entries j
  have hroom := h.room
  exact ⟨hj, rfl, by omega, h.holds.mono hij⟩

variable {log : Log}

/-- The length that the code finds at a cursor is the length of the entry. -/
theorem Cursor.getEntryLen (h : Cursor log.size log.buffer entries i off)
    (he : entries[i]? = some e) (hw : WellFormed e) : log.getEntryLen off = e.length := by
  obtain ⟨lo, hi, hlo, hhi, hlen⟩ := hw.len
  have hsize := h.room
  have hpos := pos_add_unread entries i
  have hsucc := pos_succ he
  have hnext := pos_add_unread entries (i + 1)
  have h20 : headerSize = 20 := rfl
  have hbyte : ∀ k, k < e.length →
      e[k]? = some (log.buffer ((pos entries i + k) % log.size)) := by
    intro k hk
    rw [← getElem?_append_left hk, ← drop_pos he, getElem?_drop]
    exact h.holds _ (by omega) (by omega)
  have hmod : off < log.size := by
    rw [h.off_eq]
    exact Nat.mod_lt _ (by omega)
  have hlo' : log.buffer off = lo := by
    have := hbyte 0 (by omega)
    rw [hlo, add_zero, ← h.off_eq] at this
    exact (Option.some.inj this).symm
  have hhi' : (if log.size - off = 1 then log.buffer 0 else log.buffer (off + 1)) = hi := by
    have := hbyte 1 (by omega)
    rw [hhi, Ring.mod_add (by omega), ← h.off_eq] at this
    rw [Option.some.inj this]
    split
    · rw [if_neg (by omega)]
      congr 1
      omega
    · rw [if_pos (by omega)]
  unfold Log.getEntryLen
  rw [hhi', hlo', hlen]

/-! ## Moving a cursor out of the way -/

/-- The line from the old to the new write offset crosses a cursor if and only if what is
unread there and the entry would fill the log. -/
theorem clockInterval_iff {r w : Nat} (hrw : r ≤ w) (hroom : w < r + size) (hn : 0 < n)
    (hsize : n < size) :
    Log.clockInterval (w % size) ((w + n) % size) (r % size) = true ↔ size ≤ w - r + n := by
  obtain ⟨d, rfl⟩ : ∃ d, w = r + d := ⟨w - r, by omega⟩
  have hr : r % size < size := Nat.mod_lt _ (by omega)
  have hnew := Ring.mod_add hsize (r + d)
  have hold := Ring.mod_add (show d < size by omega) r
  generalize (r + d + n) % size = b at *
  generalize (r + d) % size = a at *
  generalize r % size = c at *
  unfold Log.clockInterval
  split at hold <;> split at hnew <;> split <;>
    simp only [Bool.or_eq_true, Bool.and_eq_true, decide_eq_true_eq] <;> omega

section

variable (hpow : ∃ k, log.size = 2 ^ k)

include hpow

theorem loggerOffset_eq (n : Nat) : log.loggerOffset n = n % log.size := by
  obtain ⟨k, hk⟩ := hpow
  rw [Log.loggerOffset, hk, Nat.and_two_pow_sub_one_eq_mod]

section

variable (h : Cursor log.size log.buffer entries i off)

include h

/-- The next offset that the code goes to is the next entry's. -/
theorem Cursor.next (he : entries[i]? = some e) (hw : WellFormed e) :
    log.loggerOffset (off + log.getEntryLen off) = pos entries (i + 1) % log.size := by
  rw [h.getEntryLen he hw, loggerOffset_eq hpow, h.off_eq, Nat.mod_add_mod, pos_succ he]

/-- The loop stops at the first entry that is at least `len` bytes ahead. -/
theorem getNextEntryLoop_spec (hw : ∀ e ∈ entries, WellFormed e) {len count : Nat} (fuel : Nat)
    (hlt : count < len) (hlen : len ≤ count + unread entries i) (hfuel : len < count + fuel) :
    ∃ j, i < j ∧ j ≤ entries.length ∧ log.getNextEntryLoop len fuel off count =
      pos entries j % log.size ∧ len + pos entries i ≤ count + pos entries j ∧
      count + pos entries (j - 1) < len + pos entries i := by
  induction fuel generalizing i off count with
  | zero => omega
  | succ fuel ih =>
    obtain ⟨e, he⟩ := exists_entry (show 0 < unread entries i by omega)
    have hwe := hw e (mem_of_getElem? he)
    have hi : i + 1 ≤ entries.length := (List.getElem?_eq_some_iff.mp he).1
    have hpos := pos_succ he
    have hsum := pos_add_unread entries i
    have hsum' := pos_add_unread entries (i + 1)
    have hlong := hwe.lt
    rw [Log.getNextEntryLoop, h.next hpow he hwe, h.getEntryLen he hwe]
    split
    next hmore =>
      obtain ⟨j, hij, hj, hoff, hfar, hnear⟩ :=
        ih (h.later (by omega) hi) hmore (by omega) (by omega)
      exact ⟨j, by omega, hj, hoff, by omega, by omega⟩
    · exact ⟨i + 1, Nat.lt_succ_self i, hi, rfl, by omega, by simpa using hlt⟩

/-- Each cursor is moved as the queue allows it, and then has room for the entry. -/
theorem fixUp_spec (hsize : 2 * entryMaxLen < log.size) (hw : ∀ e ∈ entries, WellFormed e)
    (hwoff : log.wOff = entries.flatten.length % log.size) (hn : 0 < n) (hmax : n ≤ entryMaxLen) :
    ∃ i', Pulled log.size entries n i i' ∧
      Cursor log.size log.buffer entries i' (log.fixUp n off) := by
  have hsum := pos_add_unread entries i
  have hroom := h.room
  have hcross : Log.clockInterval (entries.flatten.length % log.size)
      ((entries.flatten.length + n) % log.size) (pos entries i % log.size) = true ↔
      log.size ≤ entries.flatten.length - pos entries i + n :=
    clockInterval_iff (by omega) (by omega) hn (by omega)
  unfold Log.fixUp
  rw [hwoff, loggerOffset_eq hpow, Nat.mod_add_mod, h.off_eq]
  by_cases hlapped : log.size ≤ unread entries i + n
  · rw [if_pos (hcross.mpr (by omega))]
    rw [← h.off_eq]
    obtain ⟨j, hij, hj, hoff, hfar, hnear⟩ :=
      getNextEntryLoop_spec hpow h hw (n + 1) hn (by omega) (by omega)
    have hsum' := pos_add_unread entries j
    have hlast := pos_add_unread entries (j - 1)
    refine ⟨j, ⟨hij.le, hj, by omega, by omega, by omega⟩, ?_⟩
    rw [Log.getNextEntry, hoff]
    exact h.later (by omega) hj
  · rw [if_neg (mt hcross.mp (by omega)), ← h.off_eq]
    exact ⟨i, ⟨le_rfl, h.le, fun _ => rfl, by omega, by omega⟩, h⟩

end

end

/-! ## Writing an entry -/

/-- A write on its way: `bytes` have been written from position `w` on, and nothing changed
but the cells of `n` positions. -/
structure Written (log₀ log : Log) (w n : Nat) (bytes : List Byte) : Prop where
  frame : log = { log₀ with buffer := log.buffer, wOff := log.wOff }
  wOff_eq : log.wOff = (w + bytes.length) % log₀.size
  found : ∀ k, k < bytes.length → bytes[k]? = some (log.buffer ((w + k) % log₀.size))
  same : Ring.SameBut log₀.size log₀.buffer log.buffer w n

variable {log₀ log' : Log} {w : Nat} {bytes block : List Byte}

/-- The two parts of a write, the second of which may be empty. -/
theorem doWriteLog_buffer (log : Log) (block : List Byte) : (log.doWriteLog block).buffer =
    Ring.put (Ring.put log.buffer log.wOff (block.take (log.size - log.wOff))) 0
      (block.drop (log.size - log.wOff)) := by
  unfold Log.doWriteLog
  dsimp only
  rcases Nat.lt_or_ge (log.size - log.wOff) block.length with hlt | hge
  · rw [Nat.min_eq_right hlt.le, if_pos (by omega)]
  · rw [Nat.min_eq_left hge, if_neg (by simp), take_length, take_of_length_le hge,
      drop_of_length_le hge, Ring.put_nil]

theorem Written.doWriteLog (hpow : ∃ k, log₀.size = 2 ^ k) (h : Written log₀ log w n bytes)
    (hn : bytes.length + block.length ≤ n) (hsize : n < log₀.size) :
    Written log₀ (log.doWriteLog block) w n (bytes ++ block) := by
  have hsz : log.size = log₀.size := by rw [h.frame]
  have hbuf := doWriteLog_buffer log block
  rw [hsz, h.wOff_eq] at hbuf
  have hsame : Ring.SameBut log₀.size log.buffer (log.doWriteLog block).buffer
      (w + bytes.length) block.length := by
    rw [hbuf]
    refine Ring.sameBut_put_put (by omega) ?_ ?_ ?_ (by omega)
    · rw [length_take]
      omega
    · rcases Nat.lt_or_ge (log₀.size - (w + bytes.length) % log₀.size) block.length with hlt | hge
      · right
        rw [length_take]
        omega
      · exact .inl (drop_of_length_le hge)
    · exact Nat.le_of_eq (by rw [← length_append, take_append_drop])
  refine ⟨?_, ?_, ?_, ?_⟩
  · rw [h.frame]
    rfl
  · show log.loggerOffset (log.wOff + block.length) = _
    rw [loggerOffset_eq (hsz ▸ hpow), hsz, h.wOff_eq, Nat.mod_add_mod, length_append,
      add_assoc]
  · intro k hk
    rw [length_append] at hk
    rcases Nat.lt_or_ge k bytes.length with hlt | hge
    · rw [getElem?_append_left hlt, h.found k hlt, hsame (w + k) (by omega) (by omega)]
    · obtain ⟨d, rfl⟩ : ∃ d, k = bytes.length + d := ⟨k - bytes.length, by omega⟩
      rw [getElem?_append_right hge, Nat.add_sub_cancel_left, ← add_assoc, hbuf]
      exact Ring.put_wrapped (by omega) (by omega) (by omega)
  · exact h.same.trans (hsame.weaken (by omega))

/-- A segment that can be read is written like a block of the kernel's own. -/
theorem doWriteLogFromUser_ok (log : Log) {seg : Segment} {count : Nat}
    (hfault : seg.fault.any (· < count) = false) (hcount : count ≤ seg.data.length) :
    log.doWriteLogFromUser seg count = (log.doWriteLog (seg.data.take count), some count) := by
  have hlen : (seg.data.take count).length = count := by
    rw [length_take, Nat.min_eq_left hcount]
  have hmin : min count (log.size - log.wOff) ≤ count := Nat.min_le_left _ _
  have hnone {b : Nat} (hb : b ≤ count) : seg.fault.any (· < b) = false := by
    cases hf : seg.fault with
    | none => rfl
    | some f =>
      simp only [hf, Option.any_some, decide_eq_false_iff_not] at hfault ⊢
      omega
  have hfirst : seg.copy 0 (min count (log.size - log.wOff)) =
      ((seg.data.take count).take (min count (log.size - log.wOff)), true) := by
    rw [Segment.copy, zero_add, hnone hmin, take_take, Nat.min_eq_left hmin]
    rfl
  have hrest : seg.copy (min count (log.size - log.wOff))
      (count - min count (log.size - log.wOff)) =
      ((seg.data.take count).drop (min count (log.size - log.wOff)), true) := by
    rw [Segment.copy, Nat.add_sub_cancel' hmin, hfault, drop_take]
    rfl
  unfold Log.doWriteLogFromUser Log.doWriteLog
  dsimp only
  rw [hlen, hfirst, hrest, if_neg (by simp), if_neg (by simp)]

/-- A segment that cannot be read leaves junk only where it would have been written. -/
theorem doWriteLogFromUser_fault (log : Log) {seg : Segment} {count : Nat}
    (hfault : seg.fault.any (· < count) = true) (hcount : count ≤ seg.data.length)
    (hwoff : log.wOff = w % log.size) (hsize : count < log.size) : ∃ buffer,
    log.doWriteLogFromUser seg count = ({ log with buffer := buffer }, none) ∧
      Ring.SameBut log.size log.buffer buffer w count := by
  have hmin : min count (log.size - log.wOff) ≤ count := Nat.min_le_left _ _
  have hmin' : min count (log.size - log.wOff) ≤ log.size - w % log.size := by omega
  generalize hlen : min count (log.size - log.wOff) = len at hmin hmin'
  unfold Log.doWriteLogFromUser
  dsimp only
  rw [hlen, hwoff]
  cases hfirst : seg.fault.any (· < len) with
  | true =>
    -- the first copy fails; the second one is not tried
    have hcopy : seg.copy 0 len = ((range len).map seg.junk, false) := by
      rw [Segment.copy, zero_add, hfirst]
      rfl
    have hne : len ≠ 0 := by
      rintro rfl
      cases hf : seg.fault with
      | none | some f => simp at hfirst
    rw [hcopy, if_pos ⟨hne, rfl⟩]
    refine ⟨_, rfl, ?_⟩
    exact Ring.sameBut_put_put (by omega) (by simpa using hmin') (.inl rfl) (by simpa using hmin)
      (by omega)
  | false =>
    have hcopy : seg.copy 0 len = (seg.data.take len, true) := by
      rw [Segment.copy, zero_add, hfirst]
      rfl
    have hne : count ≠ len := by
      rintro rfl
      rw [hfault] at hfirst
      cases hfirst
    have hrest : seg.copy len (count - len) = ((range (count - len)).map seg.junk, false) := by
      rw [Segment.copy, Nat.add_sub_cancel' hmin, hfault]
      rfl
    rw [hcopy, hrest, if_neg (by simp), if_pos hne, if_pos ⟨hne, rfl⟩]
    have hfull : (seg.data.take len).length = log.size - w % log.size := by
      rw [length_take]
      omega
    refine ⟨_, rfl, Ring.sameBut_put_put (by omega) hfull.le (.inr hfull) ?_ (by omega)⟩
    rw [hfull, length_map, length_range]
    omega

section

variable (hpow : ∃ k, log₀.size = 2 ^ k) (hsize : n < log₀.size) {len : Nat} (iov : List Segment)
  {ret : Nat} (h : Written log₀ log w n bytes) (hret : ret ≤ len)
  (hn : bytes.length + (len - ret) = n)

include hpow hsize h hret hn

/-- Where the segments can be read, what is left of the payload is written; a segment that
cannot be read ends the loop. Either way only the cells of the entry have changed. -/
theorem writeSegments_spec (hlen : len - ret ≤ (iov.map fun seg => seg.data.length).sum) :
    ∃ log', log' = { log₀ with buffer := log'.buffer, wOff := log'.wOff } ∧
      Ring.SameBut log₀.size log₀.buffer log'.buffer w n ∧
      if unreadable (len - ret) iov then log.writeSegments len iov ret = (log', none)
      else log.writeSegments len iov ret = (log', some len) ∧
        Written log₀ log' w n (bytes ++ (iov.flatMap fun seg => seg.data).take (len - ret)) := by
  induction iov generalizing log ret bytes with
  | nil =>
    have h0 : ret = len := by simp at hlen; omega
    subst h0
    refine ⟨log, h.frame, h.same, rfl, ?_⟩
    simpa using h
  | cons seg segs ih =>
    have hkept : min seg.data.length (len - ret) ≤ seg.data.length := Nat.min_le_left _ _
    have hsz : log.size = log₀.size := by rw [h.frame]
    rw [Log.writeSegments, unreadable]
    cases hseg : seg.fault.any (· < min seg.data.length (len - ret)) with
    | true =>
      obtain ⟨buffer, heq, hsame⟩ := doWriteLogFromUser_fault log hseg hkept
        (show log.wOff = (w + bytes.length) % log.size by rw [h.wOff_eq, hsz]) (by omega)
      rw [heq]
      refine ⟨_, ?_, ?_, rfl⟩
      · rw [h.frame]
      · rw [hsz] at hsame
        exact h.same.trans (hsame.weaken (by omega))
    | false =>
      simp only [map_cons, sum_cons] at hlen
      have hrest : len - ret - seg.data.length = len - (ret + min seg.data.length (len - ret)) := by
        omega
      have htake : seg.data.take (len - ret) = seg.data.take (min seg.data.length (len - ret)) := by
        rw [Nat.min_comm, ← take_take, take_length]
      have hlength : (seg.data.take (min seg.data.length (len - ret))).length =
          min seg.data.length (len - ret) := by
        rw [length_take, Nat.min_eq_left hkept]
      have hwritten := h.doWriteLog hpow
        (show _ + (seg.data.take (min seg.data.length (len - ret))).length ≤ n by omega) hsize
      have hret' : ret + min seg.data.length (len - ret) ≤ len := by omega
      rw [doWriteLogFromUser_ok log hseg hkept, flatMap_cons, take_append, htake, hrest,
        ← append_assoc, Nat.sub_sub]
      exact ih hwritten hret' (by rw [length_append]; omega) (by omega)

end

/-! ## The simulation -/

/-- A reader and its cursor. -/
structure ReaderOk (log : Log) (entries : List Entry) (reader : Reader) (c : ReaderId × Nat) :
    Prop where
  id_eq : reader.id = c.1
  cursor : Cursor log.size log.buffer entries c.2 reader.rOff

/-- The log stands for the queue. -/
structure Refines (log : Log) (q : Queue) : Prop where
  pow : ∃ k, log.size = 2 ^ k
  size : 2 * entryMaxLen < log.size
  wellFormed : ∀ e ∈ q.entries, WellFormed e
  wOff_eq : log.wOff = q.entries.flatten.length % log.size
  head : Cursor log.size log.buffer q.entries q.head log.head
  readers : Forall₂ (ReaderOk log q.entries) log.readers q.readers
  ids : (log.readers.map Reader.id).Nodup
  issued : ∀ reader ∈ log.readers, reader.id < log.nextReader
  next : log.nextReader = q.nextReader

variable {q : Queue}

/-- The partners of a list can be replaced one by one. -/
theorem exists_forall₂ {α β γ : Type} {R : α → β → Prop} {P : β → β → Prop} {S : γ → β → Prop}
    {f : α → γ} {l : List α} {l' : List β} (h : Forall₂ R l l')
    (hf : ∀ a b, R a b → ∃ b', P b b' ∧ S (f a) b') :
    ∃ l'', Forall₂ P l' l'' ∧ Forall₂ S (l.map f) l'' := by
  induction h with
  | nil => exact ⟨[], .nil, .nil⟩
  | cons hab _ ih =>
    obtain ⟨b', hP, hS⟩ := hf _ _ hab
    obtain ⟨l'', hPs, hSs⟩ := ih
    exact ⟨b' :: l'', .cons hP hPs, .cons hS hSs⟩

/-- Readers and `head` are moved. -/
theorem Refines.move (h : Refines log q) {f : Reader → Reader} {cursors : List (ReaderId × Nat)}
    (hid : ∀ reader, (f reader).id = reader.id) (hhead : Cursor log.size log.buffer q.entries i off)
    (hreaders : Forall₂ (ReaderOk log q.entries) (log.readers.map f) cursors) :
    Refines { log with head := off, readers := log.readers.map f }
      { q with head := i, readers := cursors } := by
  refine ⟨h.pow, h.size, h.wellFormed, h.wOff_eq, hhead,
    hreaders.imp fun _ _ hr => ⟨hr.id_eq, hr.cursor⟩, ?_, ?_, h.next⟩
  · rw [map_map, show Reader.id ∘ f = Reader.id from funext hid]
    exact h.ids
  · intro reader hmem
    obtain ⟨reader₀, hmem₀, rfl⟩ := mem_map.mp hmem
    rw [hid]
    exact h.issued reader₀ hmem₀

/-- A log that stands for the queue and has room for `n` more bytes in front of every
cursor. -/
structure HasRoom (n : Nat) (log : Log) (q : Queue) : Prop extends Refines log q where
  headRoom : unread q.entries q.head + n < log.size
  readersRoom : Forall₂ (fun reader c => ReaderOk log q.entries reader c ∧
    unread q.entries c.2 + n < log.size) log.readers q.readers

/-- `fix_up_readers` makes room for the entry in front of every cursor. -/
theorem fixUpReaders_hasRoom (h : Refines log q) (hn : 0 < n) (hmax : n ≤ entryMaxLen) :
    ∃ head readers, q.PulledAll log.size n head readers ∧
      HasRoom n (log.fixUpReaders n) { q with head := head, readers := readers } := by
  have hfix {i off : Nat} (hc : Cursor log.size log.buffer q.entries i off) :=
    fixUp_spec h.pow hc h.size h.wellFormed h.wOff_eq hn hmax
  obtain ⟨head, hpulled, hhead⟩ := hfix h.head
  obtain ⟨readers, hpulls, hreaders⟩ := exists_forall₂ h.readers
    (P := fun c c' => c'.1 = c.1 ∧ Pulled log.size q.entries n c.2 c'.2)
    (S := fun reader c' => ReaderOk log q.entries reader c' ∧ unread q.entries c'.2 + n < log.size)
    (f := fun reader => { reader with rOff := log.fixUp n reader.rOff }) (by
      intro reader c hr
      obtain ⟨i', hp, hc⟩ := hfix hr.cursor
      exact ⟨(c.1, i'), ⟨rfl, hp⟩, ⟨hr.id_eq, hc⟩, hp.room⟩)
  exact ⟨head, readers, ⟨hpulled, hpulls⟩,
    h.move (fun _ => rfl) hhead (hreaders.imp fun _ _ hr => hr.1), hpulled.room,
    hreaders.imp fun _ _ hr => ⟨⟨hr.1.id_eq, hr.1.cursor⟩, hr.2⟩⟩

section Cells

variable {buffer' : Nat → Byte}

/-- What was written in front of a cursor does not concern it. -/
theorem Cursor.clobber (h : Cursor size buffer entries i off) (hroom : unread entries i + n < size)
    (hsame : Ring.SameBut size buffer buffer' entries.flatten.length n) :
    Cursor size buffer' entries i off := by
  have hsum := pos_add_unread entries i
  exact ⟨h.le, h.off_eq, h.room, h.holds.sameBut hsame (by omega)⟩

/-- A new entry is behind every cursor that it leaves room for. -/
theorem Cursor.append (h : Cursor size buffer entries i off)
    (hroom : unread entries i + e.length < size)
    (hsame : Ring.SameBut size buffer buffer' entries.flatten.length e.length)
    (hfound : ∀ k, k < e.length → e[k]? = some (buffer' ((entries.flatten.length + k) % size))) :
    Cursor size buffer' (entries ++ [e]) i off := by
  have hflat : (entries ++ [e]).flatten = entries.flatten ++ e := by simp
  have hpos : pos (entries ++ [e]) i = pos entries i := by
    rw [pos, take_append_of_le_length h.le, pos]
  have hsum := pos_add_unread (entries ++ [e]) i
  have hsum' := pos_add_unread entries i
  refine ⟨?_, ?_, ?_, ?_⟩
  · rw [length_append]
    exact Nat.le_add_right_of_le h.le
  · rw [hpos]
    exact h.off_eq
  · rw [hflat, length_append] at hsum
    omega
  · rw [hflat, hpos, length_append]
    exact (h.holds.sameBut hsame (by omega)).append rfl hfound

end Cells

/-- The entry is written. -/
theorem HasRoom.write (h : HasRoom n log₀ q) (hw : WellFormed e) (he : e.length = n)
    (hwritten : Written log₀ log q.entries.flatten.length n e) :
    Refines log { q with entries := q.entries ++ [e] } := by
  obtain ⟨hframe, hwoff, hfound, hsame⟩ := hwritten
  have hcursor {i off : Nat} (hc : Cursor log₀.size log₀.buffer q.entries i off)
      (hroom : unread q.entries i + n < log₀.size) :
      Cursor log₀.size log.buffer (q.entries ++ [e]) i off :=
    hc.append (he ▸ hroom) (he ▸ hsame) hfound
  rw [hframe]
  refine ⟨h.pow, h.size, ?_, ?_, hcursor h.head h.headRoom, ?_, h.ids, h.issued, h.next⟩
  · exact forall_mem_append.mpr ⟨h.wellFormed, forall_mem_singleton.mpr hw⟩
  · rw [hwoff]
    simp
  · exact h.readersRoom.imp fun _ _ hr => ⟨hr.1.id_eq, hcursor hr.1.cursor hr.2⟩

/-- The write has failed and what it has left behind is in front of every cursor. -/
theorem HasRoom.fail (h : HasRoom n log₀ q) {buffer : Nat → Byte}
    (hsame : Ring.SameBut log₀.size log₀.buffer buffer q.entries.flatten.length n) :
    Refines { log₀ with buffer := buffer } q := by
  refine ⟨h.pow, h.size, h.wellFormed, h.wOff_eq, h.head.clobber h.headRoom hsame, ?_, h.ids,
    h.issued, h.next⟩
  exact h.readersRoom.imp fun _ _ hr => ⟨hr.1.id_eq, hr.1.cursor.clobber hr.2 hsame⟩

/-- The state in which the header has been written. -/
theorem HasRoom.writtenHeader (h : HasRoom n log₀ q) (hn : headerSize ≤ n) (hmax : n ≤ entryMaxLen)
    (header : Header) (len : Nat) :
      Written log₀ (log₀.doWriteLog (header.bytes len)) q.entries.flatten.length n
      (header.bytes len) := by
  have hstart : Written log₀ log₀ q.entries.flatten.length n [] :=
    ⟨rfl, h.wOff_eq, nofun, .refl _ _ _ _⟩
  have hsize := h.size
  exact hstart.doWriteLog h.pow (by rw [length_header]; simpa using hn) (by omega)

section AioWrite

variable (header : Header) {iov : List Segment} (h : Refines log q)
  (hlen : Log.payloadLen iov ≠ 0)

include h hlen

/-- After room has been made for it, an entry is written or the write goes back to `orig`. -/
theorem loggerAioWrite_spec : ∃ log' head readers,
    q.PulledAll log.size (entryOf header iov).length head readers ∧
    HasRoom (entryOf header iov).length (log.fixUpReaders (entryOf header iov).length)
      { q with head := head, readers := readers } ∧
    log' = { log.fixUpReaders (entryOf header iov).length with
      buffer := log'.buffer, wOff := log'.wOff } ∧
    Ring.SameBut log.size log.buffer log'.buffer q.entries.flatten.length
      (entryOf header iov).length ∧
    if unreadable (Log.payloadLen iov) iov then
      ∀ orig, log.loggerAioWrite orig header iov = ({ log' with wOff := orig }, .efault)
    else (∀ orig, log.loggerAioWrite orig header iov = (log', .ret (Log.payloadLen iov))) ∧
      Written (log.fixUpReaders (entryOf header iov).length) log' q.entries.flatten.length
        (entryOf header iov).length (entryOf header iov) := by
  have hw := entryOf_wellFormed header hlen
  have hmax := hw.le
  have hsize := h.size
  obtain ⟨head, readers, hpulled, hroom⟩ :=
    fixUpReaders_hasRoom h (Nat.zero_lt_of_lt hw.lt) hw.le
  have hentry := length_entryOf header iov
  have hheader := hroom.writtenHeader (by omega) hw.le header (Log.payloadLen iov)
  obtain ⟨log', hframe, hsame, hout⟩ := writeSegments_spec hroom.pow
    (show (entryOf header iov).length < log.size by omega) iov hheader
    (Nat.zero_le (Log.payloadLen iov)) (by rw [hentry]; rfl) (Nat.min_le_left _ _)
  refine ⟨log', head, readers, hpulled, hroom, hframe, hsame, ?_⟩
  simp only [Log.loggerAioWrite, ← hentry]
  rw [Nat.sub_zero] at hout
  split <;> rename_i hread
  · rw [if_pos hread] at hout
    rw [hout]
    exact fun _ => rfl
  · rw [if_neg hread] at hout
    rw [hout.1]
    exact ⟨fun _ => rfl, hout.2⟩

/-- A write that can read its segments commits its entry, whatever `orig` is. -/
theorem loggerAioWrite_ok (orig : Nat) (hread : unreadable (Log.payloadLen iov) iov = false) :
    ∃ log' head readers, log.loggerAioWrite orig header iov = (log', .ret (Log.payloadLen iov)) ∧
      log'.size = log.size ∧ q.PulledAll log.size (entryOf header iov).length head readers ∧
      Refines log' { q with
        entries := q.entries ++ [entryOf header iov], head := head, readers := readers } := by
  obtain ⟨log', head, readers, hpulled, hroom, hframe, -, hout⟩ :=
    loggerAioWrite_spec header h hlen
  rw [hread] at hout
  refine ⟨log', head, readers, hout.1 orig, ?_, hpulled,
    hroom.write (entryOf_wellFormed header hlen) rfl hout.2⟩
  rw [hframe]
  rfl

/-- A write that cannot read its segments goes back to `orig`. -/
theorem loggerAioWrite_fault (orig : Nat) (hread : unreadable (Log.payloadLen iov) iov = true) :
    ∃ log' head readers,
      log.loggerAioWrite orig header iov = ({ log' with wOff := orig }, .efault) ∧
      log'.size = log.size ∧ log'.wOff = log.wOff ∧
      Ring.SameBut log.size log.buffer log'.buffer q.entries.flatten.length
        (entryOf header iov).length ∧
      q.PulledAll log.size (entryOf header iov).length head readers ∧
      Refines log' { q with head := head, readers := readers } := by
  obtain ⟨log', head, readers, hpulled, hroom, hframe, hsame, hout⟩ :=
    loggerAioWrite_spec header h hlen
  rw [hread] at hout
  refine ⟨{ log.fixUpReaders (entryOf header iov).length with buffer := log'.buffer },
    head, readers, ?_, rfl, rfl, hsame, hpulled, hroom.fail hsame⟩
  rw [hout orig, hframe]

end AioWrite

end AndroidKernel.Logger
