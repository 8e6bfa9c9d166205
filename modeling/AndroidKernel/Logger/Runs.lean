import AndroidKernel.Logger.Refines
import Mathlib.Data.List.Nodup

/-!
# Runs of the logger

Each call of the logger is a step of the queue that returns the same, so that whatever is
seen of the logger is seen of a queue: reads return whole entries in the order of the
writes, and a reader misses no more than the queue lets it miss.
-/

namespace AndroidKernel.Logger

open List Option

variable {log log' : Log} {q : Queue} {entries : List Entry} {e : Entry} {i off size k : Nat}
  {buffer : Nat → Byte} {op : Op} {result : Result} {c : ReaderId × Nat} {id : ReaderId}
  {iov : List Segment}

/-! ## Reading -/

theorem unread_eq_zero_iff (hw : ∀ e ∈ entries, WellFormed e) (hi : i ≤ entries.length) :
    unread entries i = 0 ↔ i = entries.length := by
  constructor
  · intro h0
    by_contra hne
    obtain ⟨e, he⟩ : ∃ e, entries[i]? = some e := ⟨_, getElem?_eq_getElem (by omega)⟩
    have hlt := (hw e (mem_of_getElem? he)).lt
    have hsucc := pos_succ he
    have hsum := pos_add_unread entries i
    have hsum' := pos_add_unread entries (i + 1)
    omega
  · rintro rfl
    exact unread_length entries

/-- The code compares offsets to see whether there is something to read. -/
theorem Cursor.eq_iff (h : Cursor size buffer entries i off) (hw : ∀ e ∈ entries, WellFormed e) :
    entries.flatten.length % size = off ↔ i = entries.length := by
  have hsum := pos_add_unread entries i
  have hroom := h.room
  rw [h.off_eq, ← unread_eq_zero_iff hw h.le]
  constructor
  · intro heq
    by_contra hne
    have hmod : pos entries i % size ≠ entries.flatten.length % size :=
      Ring.mod_ne (by omega) (by omega)
    exact hmod heq.symm
  · intro h0
    rw [← hsum, h0, add_zero]

/-- What is copied to user space is the entry, and the reader goes on to the next. -/
theorem ReaderOk.read (hpow : ∃ k, log.size = 2 ^ k) (hsize : 2 * entryMaxLen < log.size)
    {reader : Reader} (h : ReaderOk log entries reader c)
    (he : entries[c.2]? = some e) (hw : WellFormed e) :
    ∃ reader', log.doReadLogToUser reader e.length false = (reader', .read e) ∧
      ReaderOk log entries reader' (c.1, c.2 + 1) := by
  have hlen := h.cursor.getEntryLen he hw
  have hnext := h.cursor.next hpow he hw
  have hsucc := pos_succ he
  have hsum := pos_add_unread entries (c.2 + 1)
  have hlt : c.2 + 1 ≤ entries.length := (List.getElem?_eq_some_iff.mp he).1
  have hle := hw.le
  have hbytes : Ring.slice log.buffer reader.rOff (min e.length (log.size - reader.rOff)) ++
      Ring.slice log.buffer 0 (e.length - min e.length (log.size - reader.rOff)) = e := by
    rw [h.cursor.off_eq, h.cursor.holds.slice_wrapped le_rfl (by omega) (by omega),
      drop_pos he, take_left]
  refine ⟨{ reader with rOff := pos entries (c.2 + 1) % log.size }, ?_, h.id_eq,
    h.cursor.later (show pos entries c.2 ≤ pos entries (c.2 + 1) by omega) hlt⟩
  unfold Log.doReadLogToUser
  dsimp only
  rw [if_neg (by simp), ← hnext, hlen]
  congr 2
  rcases Nat.eq_or_lt_of_le (Nat.min_le_left e.length (log.size - reader.rOff)) with heq | hlt
  · rw [if_neg (by omega)]
    rw [heq, Nat.sub_self] at hbytes
    rw [heq]
    exact hbytes
  · rw [if_pos (by omega)]
    exact hbytes

/-- A reader is found where its cursor is. -/
theorem find_cursor {R : Reader → ReaderId × Nat → Prop} {readers : List Reader}
    {cursors : List (ReaderId × Nat)} (h : Forall₂ R readers cursors)
    (hid : ∀ reader c, R reader c → reader.id = c.1) {reader : Reader}
    (hfind : readers.find? (fun reader => reader.id = id) = some reader) :
    ∃ c, cursors.find? (fun c => c.1 = id) = some c ∧ R reader c := by
  induction h with
  | nil => cases hfind
  | @cons reader₀ c₀ readers cursors hR _ ih =>
    have heq := hid _ _ hR
    by_cases hmatch : reader₀.id = id
    · rw [find?_cons_of_pos (by simpa using hmatch)] at hfind
      cases hfind
      exact ⟨c₀, find?_cons_of_pos (by simpa [← heq] using hmatch), hR⟩
    · rw [find?_cons_of_neg (by simpa using hmatch)] at hfind
      obtain ⟨c, hc, hRc⟩ := ih hfind
      exact ⟨c, by rw [find?_cons_of_neg (by simpa [← heq] using hmatch), hc], hRc⟩

section

variable (h : Refines log q)

include h

theorem Refines.reader {reader : Reader} (hr : log.reader id = some reader) :
    ∃ i, q.cursor id = some i ∧ ReaderOk log q.entries reader (id, i) := by
  obtain ⟨c, hc, hok⟩ := find_cursor h.readers (fun _ _ hok => hok.id_eq) hr
  obtain rfl : c.1 = id := by simpa using find?_some hc
  exact ⟨c.2, by rw [Queue.cursor, hc]; rfl, hok⟩

/-- A reader that is put back as it was. -/
theorem Refines.setReader_self {reader : Reader}
    (hr : log.reader id = some reader) : log.setReader reader = log := by
  have hmem : reader ∈ log.readers := mem_of_find?_eq_some hr
  have hmap : (log.readers.map fun other => if other.id = reader.id then reader else other) =
      log.readers := by
    conv_rhs => rw [← map_id log.readers]
    refine map_congr_left fun other hother => ?_
    split
    next hid =>
      exact (inj_on_of_nodup_map h.ids hother hmem hid).symm
    · rfl
  rw [Log.setReader, hmap]

/-- A reader is put back with another cursor. -/
theorem Refines.setReader {reader : Reader} {i : Nat}
    (hok : ReaderOk log q.entries reader (id, i)) :
    Refines (log.setReader reader) (q.setCursor id i) := by
  refine h.move ?_ h.head ?_
  · intro other
    split
    next heq =>
      exact heq.symm
    · rfl
  · rw [forall₂_map_left_iff, forall₂_map_right_iff]
    refine h.readers.imp fun other c hother => ?_
    have hid : reader.id = id := hok.id_eq
    by_cases hmatch : other.id = reader.id
    · rw [if_pos hmatch, if_pos (by rw [← hother.id_eq, hmatch, hid])]
      exact hok
    · rw [if_neg hmatch, if_neg (by rw [← hother.id_eq, ← hid]; exact hmatch)]
      exact hother

theorem read_refines {reader : Reader} (count : Nat)
    (fault : Bool) (hr : log.reader id = some reader) : ∃ q', Queue.Step log.size q
        (.read id count fault, (log.loggerRead reader count fault).2) q' ∧
      Refines (log.setReader (log.loggerRead reader count fault).1) q' := by
  obtain ⟨i, hi, hok⟩ := h.reader hr
  have hself := h.setReader_self hr
  have hempty := hok.cursor.eq_iff h.wellFormed
  rw [← h.wOff_eq] at hempty
  unfold Log.loggerRead
  dsimp only
  split
  next heq =>
    obtain rfl : i = q.entries.length := hempty.mp heq
    exact ⟨q, .readEmpty hi, by rw [hself]; exact h⟩
  next hne =>
    have hlt : i < q.entries.length :=
      Nat.lt_of_le_of_ne hok.cursor.le fun heq => hne (hempty.mpr heq)
    obtain ⟨e, he⟩ : ∃ e, q.entries[i]? = some e := ⟨_, getElem?_eq_getElem hlt⟩
    have hw := h.wellFormed e (mem_of_getElem? he)
    rw [hok.cursor.getEntryLen he hw]
    split
    next hsmall =>
      exact ⟨q, .readSmall hi he hsmall, by rw [hself]; exact h⟩
    next hcount =>
      cases fault with
      | true => exact ⟨q, .readFailed hi he (Nat.not_lt.mp hcount), by rw [← hself] at h; exact h⟩
      | false =>
        obtain ⟨reader', heq, hok'⟩ := hok.read h.pow h.size he hw
        rw [heq]
        exact ⟨_, .read hi he (Nat.not_lt.mp hcount), h.setReader hok'⟩

/-! ## The other calls -/

theorem write_refines (header : Header) (iov : List Segment) :
    ∃ q', Queue.Step log.size q (.write header iov, (log.loggerAioWrite log.wOff header iov).2) q' ∧
      (log.loggerAioWrite log.wOff header iov).1.size = log.size ∧
      Refines (log.loggerAioWrite log.wOff header iov).1 q' := by
  by_cases hlen : Log.payloadLen iov = 0
  · have heq : log.loggerAioWrite log.wOff header iov = (log, .ret 0) := by
      unfold Log.loggerAioWrite
      rw [if_pos hlen]
    rw [heq]
    exact ⟨q, .writeNothing q hlen, rfl, h⟩
  · cases hread : unreadable (Log.payloadLen iov) iov with
    | false =>
      obtain ⟨log', head, readers, heq, hsize, hpulled, hrefines⟩ :=
        loggerAioWrite_ok header h hlen log.wOff hread
      rw [heq]
      exact ⟨_, .write hlen hread hpulled, hsize, hrefines⟩
    | true =>
      obtain ⟨log', head, readers, heq, hsize, hwoff, -, hpulled, hrefines⟩ :=
        loggerAioWrite_fault header h hlen log.wOff hread
      rw [heq, ← hwoff]
      exact ⟨_, .writeFailed hlen hread hpulled, hsize, hrefines⟩

theorem open_refines (mem : Bool) :
    ∃ q', Queue.Step log.size q (.openLog mem, (log.loggerOpen mem).2) q' ∧
      Refines (log.loggerOpen mem).1 q' := by
  cases mem with
  | false => exact ⟨q, .openFailed q, h⟩
  | true =>
    refine ⟨_, .openLog q, ?_⟩
    have hfresh : log.nextReader ∉ log.readers.map Reader.id := by
      intro hmem
      obtain ⟨reader, hreader, hid⟩ := mem_map.mp hmem
      exact absurd (h.issued reader hreader) (by rw [hid]; exact Nat.lt_irrefl _)
    refine ⟨h.pow, h.size, h.wellFormed, h.wOff_eq, h.head, ?_, ?_, ?_, ?_⟩
    · refine rel_append ?_ ?_
      · exact h.readers.imp fun _ _ hr => ⟨hr.id_eq, hr.cursor⟩
      · exact .cons ⟨h.next, h.head⟩ .nil
    · show ((log.readers ++ [_]).map Reader.id).Nodup
      rw [map_append]
      exact Nodup.append h.ids (nodup_singleton _)
        (disjoint_singleton.mpr hfresh)
    · exact forall_mem_append.mpr ⟨fun reader hmem => Nat.lt_succ_of_lt (h.issued reader hmem),
        forall_mem_singleton.mpr (Nat.lt_succ_self _)⟩
    · show log.nextReader + 1 = q.nextReader + 1
      rw [h.next]

theorem close_refines (id : ReaderId) :
    Refines (log.loggerRelease id).1 { q with readers := q.readers.filter fun c => c.1 ≠ id } := by
  refine ⟨h.pow, h.size, h.wellFormed, h.wOff_eq, h.head, ?_, ?_, ?_, h.next⟩
  · refine rel_filter ?_ (h.readers.imp fun _ _ hr => ⟨hr.id_eq, hr.cursor⟩)
    intro reader c hr
    simp [hr.id_eq]
  · exact h.ids.sublist (filter_sublist.map _)
  · intro reader hmem
    exact h.issued reader (mem_of_mem_filter hmem)

theorem flush_refines : Refines (log.flush true).1 { q with
      head := q.entries.length, readers := q.readers.map fun c => (c.1, q.entries.length) } := by
  have hsize := h.size
  have hend : Cursor log.size log.buffer q.entries q.entries.length log.wOff := by
    have hpos : pos q.entries q.entries.length = q.entries.flatten.length := by simp [pos]
    refine ⟨le_rfl, by rw [h.wOff_eq, hpos], ?_, ?_⟩
    · rw [unread_length]
      omega
    · intro p hp hlt
      omega
  refine h.move (fun _ => rfl) hend ?_
  rw [forall₂_map_left_iff, forall₂_map_right_iff]
  exact h.readers.imp fun _ _ hr => ⟨hr.id_eq, hend⟩

/-- The distance of the offsets is what the reader has not read. -/
theorem getLogLen_eq {reader : Reader}
    (hok : ReaderOk log q.entries reader c) : log.getLogLen reader = unread q.entries c.2 := by
  have hsum := pos_add_unread q.entries c.2
  have hroom := hok.cursor.room
  have hmod := Ring.mod_add hroom (pos q.entries c.2)
  have hlt : pos q.entries c.2 % log.size < log.size := Nat.mod_lt _ (by omega)
  unfold Log.getLogLen
  rw [h.wOff_eq, hok.cursor.off_eq, ← hsum, hmod]
  split <;> split <;> omega

theorem getNextEntryLen_eq {reader : Reader} (hok : ReaderOk log q.entries reader c) :
    log.getNextEntryLen reader = (q.entries[c.2]?.map length).getD 0 := by
  have hempty := hok.cursor.eq_iff h.wellFormed
  rw [← h.wOff_eq] at hempty
  unfold Log.getNextEntryLen
  split
  next hne =>
    have hlt : c.2 < q.entries.length :=
      Nat.lt_of_le_of_ne hok.cursor.le fun heq => hne (hempty.mpr heq)
    have he : q.entries[c.2]? = some (q.entries.get ⟨c.2, hlt⟩) := getElem?_eq_getElem hlt
    rw [he, hok.cursor.getEntryLen he (h.wellFormed _ (get_mem _ _))]
    rfl
  · rw [getElem?_eq_none (by omega)]
    rfl

/-- Every call is a step of the queue. -/
theorem step_refines (hs : log.step op = some (log', result)) :
    ∃ q', Queue.Step log.size q (op, result) q' ∧ log'.size = log.size ∧ Refines log' q' := by
  cases op with
  | openLog mem =>
    obtain ⟨q', hstep, hr⟩ := open_refines h mem
    have heq : log.loggerOpen mem = (log', result) := some.inj hs
    rw [heq] at hstep hr
    refine ⟨q', hstep, ?_, hr⟩
    cases mem <;> cases heq <;> rfl
  | close id =>
    cases hs
    exact ⟨_, .close q id, rfl, close_refines h id⟩
  | write header iov =>
    obtain ⟨q', hstep, hsize, hr⟩ := write_refines h header iov
    have heq : log.loggerAioWrite log.wOff header iov = (log', result) := some.inj hs
    rw [heq] at hstep hsize hr
    exact ⟨q', hstep, hsize, hr⟩
  | read id count fault =>
    obtain ⟨reader, hreader, heq⟩ := map_eq_some_iff.mp hs
    obtain ⟨q', hstep, hr⟩ := read_refines h count fault hreader
    generalize log.loggerRead reader count fault = read at hstep hr heq
    cases heq
    exact ⟨q', hstep, rfl, hr⟩
  | flush write =>
    cases write with
    | false =>
      cases hs
      exact ⟨q, .flushDenied q, rfl, h⟩
    | true =>
      cases hs
      exact ⟨_, .flush q, rfl, flush_refines h⟩
  | logLen id =>
    obtain ⟨reader, hreader, heq⟩ := map_eq_some_iff.mp hs
    obtain ⟨i, hi, hok⟩ := h.reader hreader
    rw [getLogLen_eq h hok] at heq
    cases heq
    exact ⟨q, .logLen hi, rfl, h⟩
  | nextEntryLen id =>
    obtain ⟨reader, hreader, heq⟩ := map_eq_some_iff.mp hs
    obtain ⟨i, hi, hok⟩ := h.reader hreader
    rw [getNextEntryLen_eq h hok] at heq
    cases heq
    exact ⟨q, .nextEntryLen hi, rfl, h⟩

/-- A call with what it returns. -/
def Log.Step (log : Log) (event : Op × Result) (log' : Log) : Prop :=
  log.step event.1 = some (log', event.2)

/-- A write for which there is room everywhere commits its entry and nothing else. -/
theorem Refines.commits (header : Header)
    (hlen : Log.payloadLen iov ≠ 0) (hread : unreadable (Log.payloadLen iov) iov = false)
    (hhead : unread q.entries q.head + (entryOf header iov).length < log.size)
    (hreaders : ∀ c ∈ q.readers, unread q.entries c.2 + (entryOf header iov).length < log.size) :
    ∃ log', log.Step (.write header iov, .ret (Log.payloadLen iov)) log' ∧ log'.size = log.size ∧
      Refines log' { q with entries := q.entries ++ [entryOf header iov] } := by
  obtain ⟨log', head, readers, heq, hsize, hpulled, hrefines⟩ :=
    loggerAioWrite_ok header h hlen log.wOff hread
  obtain ⟨rfl, rfl⟩ := hpulled.kept hhead hreaders
  exact ⟨log', congrArg some heq, hsize, hrefines⟩

end

/-! ## Every run -/

theorem init_refines (hsize : 2 * entryMaxLen < 2 ^ k) (buffer : Nat → Byte) :
    Refines (.init (2 ^ k) buffer) {} := by
  have hstart : Cursor (2 ^ k) buffer [] 0 0 :=
    ⟨le_rfl, rfl, Nat.two_pow_pos k, nofun⟩
  exact ⟨⟨k, rfl⟩, hsize, nofun, rfl, hstart, .nil, .nil, nofun, rfl⟩

/-- Whatever calls are made, one at a time, what they return is what they return on a queue
of entries, and each reader is given entries in the order of the writes, none twice. -/
theorem logger_refines_queue (hsize : 2 * entryMaxLen < 2 ^ k) {buffer : Nat → Byte}
    {events : List (Op × Result)} (h : Trace Log.Step (.init (2 ^ k) buffer) events log) :
    ∃ q, Trace (Queue.Step (2 ^ k)) {} events q ∧ (∀ id, (returned id events).Sublist q.entries) ∧
      ∀ c ∈ q.readers, unread q.entries c.2 < 2 ^ k := by
  obtain ⟨q, hq, hlog, hr⟩ := h.simulate
    (R := fun log q => log.size = 2 ^ k ∧ Refines log q) ⟨rfl, init_refines hsize buffer⟩ (by
      rintro log log' q ⟨op, result⟩ ⟨hlog, hr⟩ hs
      obtain ⟨q', hstep, hlog', hr'⟩ := step_refines hr hs
      exact ⟨q', hlog ▸ hstep, hlog'.trans hlog, hr'⟩)
  refine ⟨q, hq, (Queue.given_of_trace hq).all, ?_⟩
  intro c hc
  obtain ⟨reader, -, hok⟩ := exists_left hr.readers hc
  rw [← hlog]
  exact hok.cursor.room

theorem logger_refines_queue_oneEntry : ∃ header iov log, ∃ q : Queue,
    Trace Log.Step (.init (2 ^ 14) fun _ => 0)
      [(.openLog true, .ret 0), (.write header iov, .ret 1),
        (.read 0 entryMaxLen false, .read (entryOf header iov))] log ∧
    Trace (Queue.Step (2 ^ 14)) {} [(.openLog true, .ret 0), (.write header iov, .ret 1),
        (.read 0 entryMaxLen false, .read (entryOf header iov))] q := by
  let header : Header := ⟨0, 1, 1, 0, 0⟩
  let iov : List Segment := [⟨[7], none, fun _ => 0⟩]
  obtain ⟨⟨log₂, _⟩, hwrite, rfl, hread⟩ :
      ∃ r ∈ ((Log.init (2 ^ 14) fun _ => 0).loggerOpen true).1.step (.write header iov),
        r.2 = .ret 1 ∧ (r.1.step (.read 0 entryMaxLen false)).map Prod.snd =
          some (.read (entryOf header iov)) := by
    decide +kernel
  obtain ⟨⟨log₃, _⟩, hread, rfl⟩ := map_eq_some_iff.mp hread
  have htrace : Trace Log.Step (.init (2 ^ 14) fun _ => 0) [(.openLog true, .ret 0),
      (.write header iov, .ret 1), (.read 0 entryMaxLen false, .read (entryOf header iov))] log₃ :=
    ((Trace.nil.snoc rfl).snoc hwrite).snoc hread
  obtain ⟨q, hq, -⟩ := logger_refines_queue (by decide) htrace
  exact ⟨header, iov, log₃, q, htrace, hq⟩

/-- After a write that has failed, a reader that had no room left in front of it does not
get the entry that it would have got. -/
theorem Refines.skips (h : Refines log q) (header : Header)
    (hlen : Log.payloadLen iov ≠ 0) (hread : unreadable (Log.payloadLen iov) iov = true)
    (hreaders : q.readers = [(id, i)])
    (hfull : log.size ≤ unread q.entries i + (entryOf header iov).length) :
    ∃ log', log.Step (.write header iov, .efault) log' ∧
      Ring.SameBut log.size log.buffer log'.buffer q.entries.flatten.length
        (entryOf header iov).length ∧
      ∀ count log'' e, log'.Step (.read id count false, .read e) log'' →
        ∃ j, i < j ∧ q.entries[j]? = some e := by
  obtain ⟨log', head, readers, heq, hsize, hwoff, hsame, hpulled, hr⟩ :=
    loggerAioWrite_fault header h hlen log.wOff hread
  rw [← hwoff] at heq
  refine ⟨log', ?_, hsame, ?_⟩
  · show some (log.loggerAioWrite log.wOff header iov) = _
    rw [← hwoff, heq]
  intro count log'' e hstep
  obtain ⟨q', hstep', -⟩ := step_refines hr hstep
  cases hstep' with
  | @read _ _ j _ hj he _ =>
    obtain ⟨c, hc, hid, hp⟩ := exists_left hpulled.readers (Queue.cursor_mem hj)
    rw [hreaders, mem_singleton] at hc
    obtain rfl : c = (id, i) := hc
    refine ⟨j, ?_, he⟩
    have hle : i ≤ j := hp.le
    have hroom : unread q.entries j + (entryOf header iov).length < log.size := hp.room
    refine Nat.lt_of_le_of_ne hle ?_
    rintro rfl
    omega

/-- Segments of the greatest payload there is; those of the second vector cannot be read. -/
theorem exists_segments : ∃ iov bad : List Segment,
    Log.payloadLen iov = 4076 ∧ unreadable 4076 iov = false ∧
    Log.payloadLen bad = 4076 ∧ unreadable 4076 bad = true := by
  obtain ⟨data, hdata⟩ : ∃ data : List Byte, data.length = 4076 :=
    ⟨.replicate 4076 0, length_replicate⟩
  refine ⟨[⟨data, none, fun _ => 0⟩], [⟨data, some 0, fun _ => 0⟩], ?_, ?_, ?_, ?_⟩
  · simp [Log.payloadLen, entryMaxPayload, entryMaxLen, headerSize, hdata]
  · simp [unreadable]
  · simp [Log.payloadLen, entryMaxPayload, entryMaxLen, headerSize, hdata]
  · simp [unreadable, hdata]

/-- In a log of 16384 bytes three entries of 4096 bytes are unread. A fourth write fails, but
has made the reader skip the first entry, although that is still whole in the ring. -/
theorem failed_write_skips : ∃ h₀ h₁ h₂ h₃ iov bad log, Trace Log.Step (.init (2 ^ 14) fun _ => 0)
      [(.openLog true, .ret 0), (.write h₀ iov, .ret 4076), (.write h₁ iov, .ret 4076),
        (.write h₂ iov, .ret 4076), (.write h₃ bad, .efault)] log ∧
    (∀ k, k < 4096 → (entryOf h₀ iov)[k]? = some (log.buffer k)) ∧
    ∀ count log' e, log.Step (.read 0 count false, .read e) log' → e ≠ entryOf h₀ iov := by
  obtain ⟨iov, bad, hlen, hread, hlen', hread'⟩ := exists_segments
  let header (tid : UInt32) : Header := ⟨0, 1, tid, 0, 0⟩
  have hsize (tid : UInt32) : (entryOf (header tid) iov).length = 4096 := by
    rw [length_entryOf, hlen]
    rfl
  have hsize' : (entryOf (header 3) bad).length = 4096 := by
    rw [length_entryOf, hlen']
    rfl
  have hne : Log.payloadLen iov ≠ 0 := by rw [hlen]; decide
  rw [← hlen] at hread
  rw [← hlen'] at hread'
  have hinit := init_refines (k := 14) (by decide) fun _ => 0
  obtain ⟨q₁, hopen, hr₁⟩ := open_refines hinit true
  cases hopen
  have hs₁ : ((Log.init (2 ^ 14) fun _ => 0).loggerOpen true).1.size = 16384 := rfl
  -- the head stays where it is, so that all three entries are in the ring
  obtain ⟨log₂, hw₂, hs₂, hr₂⟩ := hr₁.commits (header 0) hne hread
    (by rw [hs₁]; simp [unread, hsize]) (by rw [hs₁]; simp [unread, hsize])
  obtain ⟨log₃, hw₃, hs₃, hr₃⟩ := hr₂.commits (header 1) hne hread
    (by rw [hs₂, hs₁]; simp [unread, hsize]) (by rw [hs₂, hs₁]; simp [unread, hsize])
  obtain ⟨log₄, hw₄, hs₄, hr₄⟩ := hr₃.commits (header 2) hne hread
    (by rw [hs₃, hs₂, hs₁]; simp [unread, hsize])
    (by rw [hs₃, hs₂, hs₁]; simp [unread, hsize])
  let entries := [0, 1, 2].map fun tid => entryOf (header tid) iov
  replace hr₄ : Refines log₄ { entries := entries, readers := [(0, 0)], nextReader := 1 } := hr₄
  replace hs₄ : log₄.size = 16384 := by rw [hs₄, hs₃, hs₂, hs₁]
  have htotal : entries.flatten.length = 12288 := by simp [entries, hsize]
  obtain ⟨log₅, hw₅, hb₅, hskip⟩ := hr₄.skips (header 3) (by rw [hlen']; decide) hread' rfl
    (by simp [unread, entries, hsize, hsize', hs₄])
  rw [hlen] at hw₂ hw₃ hw₄
  refine ⟨header 0, header 1, header 2, header 3, iov, bad, log₅,
    ((((Trace.nil.snoc (show Log.Step (.init (2 ^ 14) fun _ => 0) (.openLog true, .ret 0) _
      from rfl)).snoc hw₂).snoc hw₃).snoc hw₄).snoc hw₅, ?_, ?_⟩
  · intro k hk
    have hheld := hr₄.head.holds k (Nat.zero_le k) (by rw [htotal]; omega)
    have hkept := hb₅ k (by rw [htotal]; omega) (by rw [htotal, hsize', hs₄]; omega)
    change (entryOf (header 0) iov ++ _)[k]? = _ at hheld
    rw [List.getElem?_append_left (by rw [hsize]; exact hk)] at hheld
    rw [hheld, ← hkept, Nat.mod_eq_of_lt (by omega)]
  · intro count log' e hstep heq
    obtain ⟨j, hj, he⟩ := hskip count log' e hstep
    have htid (tid : UInt32) :
        (entryOf (header tid) iov)[8]? = some (.ofNat (tid.toNat % 256)) := rfl
    have hlt : j < entries.length := (List.getElem?_eq_some_iff.mp he).1
    obtain rfl | rfl : j = 1 ∨ j = 2 := by
      simp only [entries, length_map, length_cons, length_nil] at hlt
      omega
    all_goals
      have hbyte := congrArg (fun e => e[8]?) ((some.inj he).trans heq)
      simp only [htid] at hbyte
      cases hbyte

/-- A reader misses entries that have not been overwritten. -/
theorem misses_not_overwritten : (∃ h₀ h₁ h₂ h₃ iov bad log,
      Trace Log.Step (.init (2 ^ 14) fun _ => 0)
        [(.openLog true, .ret 0), (.write h₀ iov, .ret 4076), (.write h₁ iov, .ret 4076),
          (.write h₂ iov, .ret 4076), (.write h₃ bad, .efault)] log ∧
      (∀ k, k < 4096 → (entryOf h₀ iov)[k]? = some (log.buffer k)) ∧
      ∀ count log' e, log.Step (.read 0 count false, .read e) log' → e ≠ entryOf h₀ iov) ∧
    ∃ header iov log, Trace Log.Step (.init (2 ^ 14) fun _ => 0)
        [(.openLog true, .ret 0), (.write header iov, .ret 1), (.flush true, .ret 0)] log ∧
      ∀ count log' e, ¬ log.Step (.read 0 count false, .read e) log' := by
  refine ⟨failed_write_skips, ?_⟩
  -- a flush makes the reader skip an entry although nothing was written after it
  let header : Header := ⟨0, 1, 1, 0, 0⟩
  let iov : List Segment := [⟨[7], none, fun _ => 0⟩]
  have hinit := init_refines (k := 14) (by decide) fun _ => 0
  obtain ⟨q₁, hopen, hr₁⟩ := open_refines hinit true
  cases hopen
  obtain ⟨log₂, hwrite, -, hr₂⟩ :=
    hr₁.commits header (show Log.payloadLen iov ≠ 0 by decide) (by decide) (by decide) (by decide)
  have hr₃ := flush_refines hr₂
  refine ⟨header, iov, (log₂.flush true).1,
    ((Trace.nil.snoc (show Log.Step (.init (2 ^ 14) fun _ => 0) (.openLog true, .ret 0) _
      from rfl)).snoc hwrite).snoc (show log₂.Step (.flush true, .ret 0) _ from rfl), ?_⟩
  intro count log' e hstep
  obtain ⟨q', hstep', -⟩ := step_refines hr₃ hstep
  cases hstep' with
  | read hi he _ =>
    cases hi
    simp at he

end AndroidKernel.Logger
