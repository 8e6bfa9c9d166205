import AndroidKernel.Lib.Runs
import AndroidKernel.Logger.Basic
import Mathlib.Data.List.Forall2

/-!
# What the logger is for: a queue of entries

The entries that were ever committed, in the order of the writes, and for each reader the
number of the entry that it reads next. Nothing is said about where entries are stored,
except that what a reader has not read is less than the size of the log: a write that
would break this moves the reader past the oldest of its unread entries first.
-/

namespace AndroidKernel.Logger

open List

abbrev Entry := List Byte

structure Queue where
  entries : List Entry := []
  head : Nat := 0
  readers : List (ReaderId × Nat) := []
  nextReader : ReaderId := 0

/-- The entry that a write commits. -/
def entryOf (header : Header) (iov : List Segment) : Entry :=
  header.bytes (Log.payloadLen iov) ++
    (iov.flatMap fun seg => seg.data).take (Log.payloadLen iov)

/-- Whether a byte of the first `len` of the segments cannot be read. -/
def unreadable : Nat → List Segment → Bool
  | _, [] => false
  | len, seg :: segs =>
    let kept := min seg.data.length len
    seg.fault.any (· < kept) || unreadable (len - kept) segs

/-- The bytes of the entries from number `i` on. -/
def unread (entries : List Entry) (i : Nat) : Nat := (entries.drop i).flatten.length

/-- Where a cursor may be moved by the write of an entry with `n` bytes: only forward, only
if what is unread and the entry would fill the log, and so that they no longer do. The entries
that are skipped are, without the last one, together shorter than the new one. -/
structure Pulled (size : Nat) (entries : List Entry) (n i i' : Nat) : Prop where
  le : i ≤ i'
  le_length : i' ≤ entries.length
  kept : unread entries i + n < size → i' = i
  room : unread entries i' + n < size
  few : i < i' → unread entries i < unread entries (i' - 1) + n

namespace Queue

def cursor (q : Queue) (id : ReaderId) : Option Nat :=
  (q.readers.find? fun c => c.1 = id).map fun c => c.2

def setCursor (q : Queue) (id : ReaderId) (i : Nat) : Queue :=
  { q with readers := q.readers.map fun c => if c.1 = id then (id, i) else c }

/-- The cursors before and after a write. -/
structure PulledAll (size n : Nat) (q : Queue) (head : Nat) (readers : List (ReaderId × Nat)) :
    Prop where
  head : Pulled size q.entries n q.head head
  readers : Forall₂ (fun c c' => c'.1 = c.1 ∧ Pulled size q.entries n c.2 c'.2)
    q.readers readers

/-- What a call does to the queue, and what it returns. -/
inductive Step (size : Nat) : Queue → Op × Result → Queue → Prop
  | openLog (q : Queue) :
      Step size q (.openLog true, .ret 0)
        { q with readers := q.readers ++ [(q.nextReader, q.head)], nextReader := q.nextReader + 1 }
  | openFailed (q : Queue) : Step size q (.openLog false, .enomem) q
  | close (q : Queue) (id : ReaderId) :
      Step size q (.close id, .ret 0) { q with readers := q.readers.filter fun c => c.1 ≠ id }
  | writeNothing (q : Queue) {header : Header} {iov : List Segment} :
      Log.payloadLen iov = 0 → Step size q (.write header iov, .ret 0) q
  | write {q : Queue} {header : Header} {iov : List Segment} {head : Nat}
      {readers : List (ReaderId × Nat)} :
      Log.payloadLen iov ≠ 0 → unreadable (Log.payloadLen iov) iov = false →
      PulledAll size (entryOf header iov).length q head readers →
      Step size q (.write header iov, .ret (Log.payloadLen iov))
        { q with entries := q.entries ++ [entryOf header iov], head := head, readers := readers }
  | writeFailed {q : Queue} {header : Header} {iov : List Segment} {head : Nat}
      {readers : List (ReaderId × Nat)} :
      Log.payloadLen iov ≠ 0 → unreadable (Log.payloadLen iov) iov = true →
      PulledAll size (entryOf header iov).length q head readers →
      Step size q (.write header iov, .efault) { q with head := head, readers := readers }
  | readEmpty {q : Queue} {id : ReaderId} {count : Nat} {fault : Bool} :
      q.cursor id = some q.entries.length → Step size q (.read id count fault, .eagain) q
  | readSmall {q : Queue} {id : ReaderId} {count i : Nat} {fault : Bool} {e : Entry} :
      q.cursor id = some i → q.entries[i]? = some e → count < e.length →
      Step size q (.read id count fault, .einval) q
  | readFailed {q : Queue} {id : ReaderId} {count i : Nat} {e : Entry} :
      q.cursor id = some i → q.entries[i]? = some e → e.length ≤ count →
      Step size q (.read id count true, .efault) q
  | read {q : Queue} {id : ReaderId} {count i : Nat} {e : Entry} :
      q.cursor id = some i → q.entries[i]? = some e → e.length ≤ count →
      Step size q (.read id count false, .read e) (q.setCursor id (i + 1))
  | flush (q : Queue) :
      Step size q (.flush true, .ret 0)
        { q with
          head := q.entries.length
          readers := q.readers.map fun c => (c.1, q.entries.length) }
  | flushDenied (q : Queue) : Step size q (.flush false, .ebadf) q
  | logLen {q : Queue} {id : ReaderId} {i : Nat} :
      q.cursor id = some i → Step size q (.logLen id, .ret (unread q.entries i)) q
  | nextEntryLen {q : Queue} {id : ReaderId} {i : Nat} :
      q.cursor id = some i →
      Step size q (.nextEntryLen id, .ret ((q.entries[i]?.map length).getD 0)) q

end Queue

/-- The entries that a reader has been given, in the order of its reads. -/
def returned (id : ReaderId) (events : List (Op × Result)) : List Entry :=
  events.filterMap fun
    | (.read id' _ _, .read e) => if id' = id then some e else none
    | _ => none

/-- What stands on the right of a relation between lists has a partner on the left. -/
theorem exists_left {α β : Type} {R : α → β → Prop} {l : List α} {l' : List β}
    (h : Forall₂ R l l') {b : β} (hb : b ∈ l') : ∃ a ∈ l, R a b := by
  obtain ⟨i, rfl⟩ := get_of_mem hb
  exact ⟨_, get_mem _ _, h.get (by rw [h.length_eq]; exact i.2) i.2⟩

/-! ## Readers get entries in order -/

/-- What a reader has been given lies before its cursor, in order. -/
structure Queue.Given (q : Queue) (events : List (Op × Result)) : Prop where
  before : ∀ c ∈ q.readers, (returned c.1 events).Sublist (q.entries.take c.2)
  all : ∀ id, (returned id events).Sublist q.entries
  fresh : ∀ id, q.nextReader ≤ id → returned id events = []
  issued : ∀ c ∈ q.readers, c.1 < q.nextReader

namespace Queue

variable {size : Nat} {q q' : Queue} {ev : Op × Result} {events events' : List (Op × Result)}

theorem given_nil : Given {} [] := by
  refine ⟨nofun, fun id => ?_, fun id _ => rfl, nofun⟩
  exact nil_sublist _

/-- Cursors that only go forward keep what has been given behind them. -/
theorem Given.mono (h : q.Given events) (hret : ∀ id, returned id events' = returned id events)
    (hentries : q.entries.IsPrefix q'.entries) (hnext : q.nextReader ≤ q'.nextReader)
    (hreaders : ∀ c' ∈ q'.readers,
      (∃ c ∈ q.readers, c'.1 = c.1 ∧ (c.2 ≤ c'.2 ∨ q'.entries.length ≤ c'.2)) ∨
      (c'.1 = q.nextReader ∧ q.nextReader < q'.nextReader)) : q'.Given events' := by
  have hall (id : ReaderId) : (returned id events').Sublist q'.entries := by
    rw [hret]
    exact (h.all id).trans hentries.sublist
  refine ⟨?_, hall, ?_, ?_⟩
  · intro c' hc'
    rcases hreaders c' hc' with ⟨c, hc, hid, hle⟩ | ⟨hid, -⟩
    · rcases hle with hle | hle
      · rw [hret, hid]
        refine (h.before c hc).trans (IsPrefix.sublist ?_)
        refine prefix_take_iff.mpr ⟨( take_prefix _ _).trans hentries, ?_⟩
        exact (length_take_le _ _).trans hle
      · rw [take_of_length_le hle]
        exact hall c'.1
    · rw [hret, hid, h.fresh _ le_rfl]
      exact nil_sublist _
  · intro id hid
    rw [hret]
    exact h.fresh id (hnext.trans hid)
  · intro c' hc'
    rcases hreaders c' hc' with ⟨c, hc, hid, -⟩ | ⟨hid, hlt⟩
    · rw [hid]
      exact Nat.lt_of_lt_of_le (h.issued c hc) hnext
    · rw [hid]
      exact hlt

/-- An event that returns no entry, in a queue that stays as it is. -/
theorem Given.of_returned (h : q.Given events)
    (hret : ∀ id, returned id events' = returned id events) : q.Given events' := by
  refine h.mono hret (prefix_refl _) le_rfl fun c hc => .inl ?_
  exact ⟨c, hc, rfl, .inl le_rfl⟩

section

variable {n head : Nat} {readers : List (ReaderId × Nat)} (h : PulledAll size n q head readers)

include head h

/-- Cursors that were moved by a write belong to cursors before it. -/
theorem PulledAll.forward {c' : ReaderId × Nat} (hc' : c' ∈ readers) :
    ∃ c ∈ q.readers, c'.1 = c.1 ∧ c.2 ≤ c'.2 := by
  obtain ⟨c, hc, hid, hpulled⟩ := exists_left h.readers hc'
  exact ⟨c, hc, hid, hpulled.le⟩

/-- Nothing is lost while there is room. -/
theorem PulledAll.kept (hhead : unread q.entries q.head + n < size)
    (hreaders : ∀ c ∈ q.readers, unread q.entries c.2 + n < size) :
    head = q.head ∧ readers = q.readers := by
  obtain ⟨hpulledHead, hpulled⟩ := h
  refine ⟨hpulledHead.kept hhead, ?_⟩
  generalize q.readers = cursors at hpulled hreaders
  induction hpulled with
  | nil => rfl
  | @cons c c' cursors readers hc _ ih =>
    have heq : c' = c := Prod.ext hc.1 (hc.2.kept (hreaders c mem_cons_self))
    rw [heq, ih fun c hc => hreaders c (mem_cons_of_mem _ hc)]

end

theorem cursor_mem {id : ReaderId} {i : Nat} (h : q.cursor id = some i) : (id, i) ∈ q.readers := by
  obtain ⟨c, hc, rfl⟩ := Option.map_eq_some_iff.mp h
  have hid : c.1 = id := by simpa using find?_some hc
  have hmem := mem_of_find?_eq_some hc
  rw [← hid]
  exact hmem

/-- An entry that is returned comes right after what the reader has been given or later. -/
theorem Given.read (h : q.Given events) {id : ReaderId} {i count : Nat} {fault : Bool} {e : Entry}
    (hi : q.cursor id = some i) (he : q.entries[i]? = some e) :
    (q.setCursor id (i + 1)).Given (events ++ [(.read id count fault, .read e)]) := by
  have hself : returned id (events ++ [(.read id count fault, .read e)]) =
      returned id events ++ [e] := by
    simp [returned]
  have hother {id' : ReaderId} (hne : id' ≠ id) :
      returned id' (events ++ [(.read id count fault, .read e)]) = returned id' events := by
    simp [returned, Ne.symm hne]
  have hmem := cursor_mem hi
  have hbefore : (returned id events ++ [e]).Sublist (q.entries.take (i + 1)) := by
    rw [take_add_one, he]
    exact (h.before _ hmem).append (Sublist.refl _)
  refine ⟨?_, ?_, ?_, ?_⟩
  · intro c' hc'
    obtain ⟨c, hc, rfl⟩ := mem_map.mp hc'
    split
    · rw [hself]
      exact hbefore
    next hne =>
      rw [hother hne]
      exact h.before c hc
  · intro id'
    by_cases hid : id' = id
    · subst hid
      rw [hself]
      exact hbefore.trans (take_sublist _ _)
    · rw [hother hid]
      exact h.all id'
  · intro id' hid'
    have hne : id' ≠ id := by
      rintro rfl
      exact absurd (h.issued _ hmem) (Nat.not_lt.mpr hid')
    rw [hother hne]
    exact h.fresh id' hid'
  · intro c' hc'
    obtain ⟨c, hc, rfl⟩ := mem_map.mp hc'
    split
    · exact h.issued (id, i) hmem
    · exact h.issued c hc

theorem Step.given (hs : Step size q ev q') (h : q.Given events) : q'.Given (events ++ [ev]) := by
  -- all but successful reads return no entry and only move cursors forward
  have hstay {c : ReaderId × Nat} {entries : List Entry} (hc : c ∈ q.readers) :
      ∃ c₀ ∈ q.readers, c.1 = c₀.1 ∧ (c₀.2 ≤ c.2 ∨ entries.length ≤ c.2) :=
    ⟨c, hc, rfl, .inl le_rfl⟩
  cases hs with
  | openLog =>
    refine h.mono (by simp [returned]) (prefix_refl _) (Nat.le_succ _) ?_
    exact forall_mem_append.mpr ⟨fun _ hc => .inl (hstay hc),
      forall_mem_singleton.mpr (.inr ⟨rfl, Nat.lt_succ_self _⟩)⟩
  | close id =>
    refine h.mono (by simp [returned]) (prefix_refl _) le_rfl ?_
    exact fun _ hc => .inl (hstay (mem_of_mem_filter hc))
  | write _ _ hpulled =>
    refine h.mono (by simp [returned]) (prefix_append _ _) le_rfl ?_
    intro c' hc'
    obtain ⟨c, hc, hid, hle⟩ := hpulled.forward hc'
    exact .inl ⟨c, hc, hid, .inl hle⟩
  | writeFailed _ _ hpulled =>
    refine h.mono (by simp [returned]) (prefix_refl _) le_rfl ?_
    intro c' hc'
    obtain ⟨c, hc, hid, hle⟩ := hpulled.forward hc'
    exact .inl ⟨c, hc, hid, .inl hle⟩
  | read hi he _ => exact h.read hi he
  | flush =>
    refine h.mono (by simp [returned]) (prefix_refl _) le_rfl ?_
    intro c' hc'
    obtain ⟨c, hc, rfl⟩ := mem_map.mp hc'
    exact .inl ⟨c, hc, rfl, .inr le_rfl⟩
  | openFailed | writeNothing | readEmpty | readSmall | readFailed | flushDenied | logLen
  | nextEntryLen =>
    exact h.of_returned (by simp [returned])

/-- In every run of the queue, each reader is given entries in the order of the writes,
none twice. -/
theorem given_of_trace (h : Trace (Step size) {} events q) : q.Given events := by
  induction h with
  | nil => exact given_nil
  | snoc _ hs ih => exact hs.given ih

end Queue

end AndroidKernel.Logger
