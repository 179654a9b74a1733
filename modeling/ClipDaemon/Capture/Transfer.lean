import ClipDaemon.Text

/-!
# Receiving a transfer

The bytes of an offer come through a pipe and are collected in a memory file, one bounded
chunk a tick (`capture/transfer.rs`).  The source delivers a stream as it likes: each read
finds some bytes ready, or none yet, or the end of the stream.  A read asks for one byte
more than the limit leaves, so a stream that is too long is noticed before its end.

`pump` is a run of ticks.  Whatever the stream, the ticks and their times are, a run that
ends has collected the whole stream (`pump_ended`).
-/

namespace ClipDaemon.Capture

/-- Milliseconds. -/
def IDLE : Nat := 5000
def TOTAL : Nat := 15000

/-- The bytes one tick reads at most. -/
def CHUNK_BYTES : Nat := 64 * 1024

/-- The errors of a transfer. -/
inductive IoError
  | timedOut
  | fileTooLarge
  /-- An error of the operating system. -/
  | failed (message : String)
deriving DecidableEq

/-- What a read of the source finds. -/
inductive Readiness
  /-- At most this many bytes and one more are in the pipe, or the stream has ended. -/
  | ready (more : Nat)
  | wouldBlock
  | interrupted
  | failed (message : String)
deriving DecidableEq

/-- A stream that is read into a memory file. -/
structure Transfer where
  /-- The part of the stream that was not read yet. -/
  source : Bytes
  /-- The memory file. -/
  data : Bytes
  length : Nat
  limit : Nat
  nonblank : Bool
  started : Nat
  progress : Nat
deriving DecidableEq

/-- How a transfer ends. -/
inductive Received
  | blank
  /-- The memory file, rewound. -/
  | complete (file : Bytes)
deriving DecidableEq

/-- One tick: its time, what the read finds, and whether the memory file takes a write. -/
structure Tick where
  now : Nat
  readiness : Readiness
  writable : Bool

namespace Transfer

/-- Nothing was read yet. -/
def new (source : Bytes) (limit now : Nat) : Transfer where
  source := source
  data := []
  length := 0
  limit := limit
  nonblank := false
  started := now
  progress := now

/-- Bytes are written to the memory file, within the limit. -/
def append (bytes : Bytes) (now : Nat) (writable : Bool) (t : Transfer) :
    Except IoError Transfer :=
  let length := t.length + bytes.length
  if length > t.limit then .error .fileTooLarge
  else if writable then
    .ok { t with
      length, progress := now, data := t.data ++ bytes
      nonblank := t.nonblank || bytes.any fun b => !isAsciiWhitespace b }
  else .error (.failed "write failed")

/-- One chunk; true means the end of the stream. -/
def receive (tick : Tick) (t : Transfer) : Except IoError (Bool × Transfer) :=
  if IDLE ≤ tick.now - t.progress ∨ TOTAL ≤ tick.now - t.started then .error .timedOut
  else
    match tick.readiness with
    | .ready more =>
        let remaining := min (t.limit + 1 - t.length) CHUNK_BYTES
        let count := min (more + 1) remaining
        match t.source.take count with
        | [] => .ok (true, t)
        | b :: bytes =>
            ({ t with source := t.source.drop count }.append
              (b :: bytes) tick.now tick.writable).map
              fun t => (false, t)
    | .wouldBlock => .ok (false, t)
    | .interrupted => .ok (false, t)
    | .failed message => .error (.failed message)

/-- The memory file may refuse to be rewound. -/
def finish (rewinds : Bool) (t : Transfer) : Except IoError Received :=
  if !t.nonblank then .ok .blank
  else if rewinds then .ok (.complete t.data)
  else .error (.failed "rewind failed")

end Transfer

/-! ## Runs -/

/-- Where a run of ticks leads. -/
inductive Pumped
  | running (transfer : Transfer)
  /-- The end of the stream was reported. -/
  | ended (transfer : Transfer)
  | rejected (error : IoError)
deriving DecidableEq

/-- Ticks until the end of the stream or an error. -/
def pump : List Tick → Transfer → Pumped
  | [], t => .running t
  | tick :: ticks, t =>
      match t.receive tick with
      | .error error => .rejected error
      | .ok (true, t) => .ended t
      | .ok (false, t) => pump ticks t

/-! ## What is kept -/

/-- The memory file holds what was read of a stream, within the limit. -/
structure Transfer.Collects (stream : Bytes) (limit started : Nat) (t : Transfer) : Prop where
  whole : t.data ++ t.source = stream
  counted : t.length = t.data.length
  within : t.length ≤ t.limit
  bounded : t.limit = limit
  begun : t.started = started
  blank : t.nonblank = t.data.any fun b => !isAsciiWhitespace b

namespace Transfer

variable {stream : Bytes} {limit started : Nat} {t t' : Transfer} {tick : Tick}

theorem collects_new (stream : Bytes) (limit started : Nat) :
    (new stream limit started).Collects stream limit started where
  whole := rfl
  counted := rfl
  within := Nat.zero_le _
  bounded := rfl
  begun := rfl
  blank := rfl

/-- What a read that goes on does: nothing, or it moves a chunk within the limit. -/
theorem receive_running (h : t.receive tick = .ok (false, t')) :
    t' = t ∨ ∃ count, t.length + (t.source.take count).length ≤ t.limit ∧
      t.source.take count ≠ [] ∧
      t' = { t with
        source := t.source.drop count, length := t.length + (t.source.take count).length
        progress := tick.now, data := t.data ++ t.source.take count
        nonblank := t.nonblank || (t.source.take count).any fun b => !isAsciiWhitespace b } := by
  simp only [receive] at h
  split at h
  · cases h
  · split at h
    next more hready =>
      generalize min (more + 1) (min (t.limit + 1 - t.length) CHUNK_BYTES) = count at h
      split at h
      · simp at h
      next b bytes hchunk =>
        simp only [append] at h
        split at h
        · simp [Except.map] at h
        next hshort =>
          split at h
          · right
            refine ⟨count, ?_, by simp [hchunk], ?_⟩
            · rw [hchunk]
              omega
            · rw [hchunk]
              simpa [Except.map] using h.symm
          · simp [Except.map] at h
    · exact .inl (by simpa using h.symm)
    · exact .inl (by simpa using h.symm)
    · cases h

/-- A read that reports the end changes nothing. -/
theorem receive_same (h : t.receive tick = .ok (true, t')) : t' = t := by
  simp only [receive] at h
  split at h
  · cases h
  · split at h
    · split at h
      · simpa using h.symm
      · simp only [append] at h
        split at h
        · simp [Except.map] at h
        · split at h <;> simp [Except.map] at h
    · simp at h
    · simp at h
    · cases h

/-- The end is reported when nothing is left, and only then: a read never asks for zero
bytes. -/
theorem receive_ended (hc : t.Collects stream limit started) (h : t.receive tick = .ok (true, t')) :
    t' = t ∧ t.source = [] := by
  refine ⟨receive_same h, ?_⟩
  simp only [receive] at h
  split at h
  · cases h
  · split at h
    next more hready =>
      split at h
      next hchunk =>
        have hwithin := hc.within
        have hchunkBytes : 0 < CHUNK_BYTES := by decide
        rcases List.take_eq_nil_iff.mp hchunk with hzero | hnil
        · omega
        · exact hnil
      next b bytes hchunk =>
        simp only [append] at h
        split at h
        · simp [Except.map] at h
        · split at h <;> simp [Except.map] at h
    · simp at h
    · simp at h
    · cases h

/-- A read that goes on keeps the limit, and stays within it. -/
theorem receive_within (h : t.receive tick = .ok (false, t')) (hwithin : t.length ≤ t.limit) :
    t'.limit = t.limit ∧ t'.length ≤ t'.limit := by
  rcases receive_running h with rfl | ⟨count, hlimit, -, rfl⟩
  · exact ⟨rfl, hwithin⟩
  · exact ⟨rfl, hlimit⟩

theorem Collects.receive (hc : t.Collects stream limit started)
    (h : t.receive tick = .ok (false, t')) : t'.Collects stream limit started := by
  rcases receive_running h with rfl | ⟨count, hlimit, -, rfl⟩
  · exact hc
  · exact {
      whole := by simp [← hc.whole, List.take_append_drop]
      counted := by simp [hc.counted]
      within := hlimit
      bounded := hc.bounded
      begun := hc.begun
      blank := by simp [hc.blank] }

/-- A tick too long after the last bytes, or after the start, is refused. -/
theorem receive_late (h : IDLE ≤ tick.now - t.progress ∨ TOTAL ≤ tick.now - t.started) :
    t.receive tick = .error .timedOut := by
  simp only [receive, h, if_true]

/-- The time of the last bytes moves with the memory file only. -/
theorem receive_progress (h : t.receive tick = .ok (false, t')) :
    t'.progress = if t'.data = t.data then t.progress else tick.now := by
  rcases receive_running h with rfl | ⟨count, -, hchunk, rfl⟩
  · simp
  · simp [hchunk]

end Transfer

/-! ## Whole runs -/

section Pump

variable {stream : Bytes} {limit started : Nat} {t t' : Transfer} {ticks : List Tick}

/-- A run that has not ended holds a part of the stream. -/
theorem pump_running (hc : t.Collects stream limit started) (h : pump ticks t = .running t') :
    t'.Collects stream limit started := by
  induction ticks generalizing t with
  | nil => exact Pumped.running.inj h ▸ hc
  | cons tick ticks ih =>
      simp only [pump] at h
      split at h
      · cases h
      · cases h
      next hreceive => exact ih (hc.receive hreceive) h

/-- A run that has ended holds the whole stream. -/
theorem pump_ended (hc : t.Collects stream limit started) (h : pump ticks t = .ended t') :
    t'.data = stream ∧ stream.length ≤ limit ∧
      (t'.nonblank = stream.any fun b => !isAsciiWhitespace b) := by
  induction ticks generalizing t with
  | nil => cases h
  | cons tick ticks ih =>
      simp only [pump] at h
      split at h
      · cases h
      next hreceive =>
        obtain ⟨rfl, hsource⟩ := Transfer.receive_ended hc hreceive
        have ht := Pumped.ended.inj h
        subst ht
        have hwhole := hc.whole
        rw [hsource, List.append_nil] at hwhole
        have hwithin := hc.within
        rw [hc.counted, hc.bounded, hwhole] at hwithin
        exact ⟨hwhole, hwithin, hwhole ▸ hc.blank⟩
      next hreceive => exact ih (hc.receive hreceive) h

theorem pump_append {later : List Tick} (h : pump ticks t = .running t') :
    pump (ticks ++ later) t = pump later t' := by
  induction ticks generalizing t with
  | nil => rw [Pumped.running.inj h, List.nil_append]
  | cons tick ticks ih =>
      simp only [pump] at h
      simp only [List.cons_append, pump]
      split at h
      · cases h
      · cases h
      next => exact ih h

end Pump

end ClipDaemon.Capture
