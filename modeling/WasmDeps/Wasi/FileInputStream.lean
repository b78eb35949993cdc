import Mathlib.Data.List.Basic
import WasmDeps.Lib.Exec

/-!
# File input streams

A `FileInputStream` reads a file from a position on.  It holds at most one chunk of bytes, or
a task that is reading one.  A blocking read of no bytes that finds the stream idle reads into
an empty buffer, and takes the count 0 that it gets for the end of the file.
-/

namespace WasmDeps.Wasi

open WasmDeps.Lib

/-- A task is the state that its read will give. -/
inductive ReadState
  | idle
  | waiting (task : ReadState)
  | dataAvailable (bytes : List UInt8)
  | closed

/-- A stream of a file: its position, and the read under way. -/
structure FileInputStream where
  position : ℕ
  state : ReadState

/-- The bytes taken, or `none` for the error `Closed`, and the stream afterwards. -/
abbrev Taken := Option (List UInt8) × FileInputStream

namespace FileInputStream

/-- No read takes more bytes than this. -/
def maxReadSizeAlloc : ℕ := 64 * 1024

variable (file : List UInt8) (short : ℕ) (s : FileInputStream) (size : ℕ)

/-- Read from a file.  The system returns at most `short + 1` of the bytes there are. -/
def blockingReadAt (offset : ℕ) : ReadState :=
  match ((file.drop offset).take (min size maxReadSizeAlloc)).take (short + 1) with
  | [] => .closed
  | bytes => .dataAvailable bytes

/-- Waits until the read under way has finished. -/
def waitReady : FileInputStream :=
  match s.state with
  | .waiting task => { s with state := task }
  | _ => s

/-- Takes what a finished read left, or starts a read. -/
def read : Taken :=
  match s.state with
  | .idle =>
    if size = 0 then (some [], s)
    else (some [], { s with state := .waiting (blockingReadAt file short size s.position) })
  | .dataAvailable bytes =>
    let rest := bytes.drop size
    (some (bytes.take size), ⟨s.position + min bytes.length size,
      if rest = [] then .idle else .dataAvailable rest⟩)
  | .waiting _ => (some [], s)
  | .closed => (none, s)

/-- Takes bytes, after a read if there is none. -/
def blockingRead : Taken :=
  let s := s.waitReady
  match s.state with
  | .idle => read file short { s with state := blockingReadAt file short size s.position } size
  | _ => read file short s size

/-- Reads ahead, if nothing was read yet, and waits. -/
def ready : FileInputStream :=
  waitReady (match s.state with
    | .idle => { s with state := .waiting (blockingReadAt file short 4096 s.position) }
    | _ => s)

/-- The operations on the stream. -/
inductive Op
  | read (size : ℕ)
  | blockingRead (size : ℕ)
  | skip (size : ℕ)
  | blockingSkip (size : ℕ)
  | ready

namespace Op

/-- The bytes that an operation takes.  The two skips return their number. -/
def apply : Op → Taken
  | read size | skip size => s.read file short size
  | blockingRead size | blockingSkip size => s.blockingRead file short size
  | ready => (some [], s.ready file short)

def len : Op → ℕ
  | read size | skip size | blockingRead size | blockingSkip size => size
  | ready => 0

/-- A blocking call of length zero finds data, or a stream that is closed already. -/
def Allowed : Op → Prop
  | blockingRead 0 | blockingSkip 0 => s.state ≠ .idle ∧ s.state ≠ .waiting .closed
  | _ => True

end Op

/-- The stream with the bytes it has taken; a call comes with the count that the system returns
for it. -/
def machine (start : ℕ) : Machine (List UInt8 × FileInputStream) (Op × ℕ) where
  start := (· = ([], ⟨start, .idle⟩))
  allowed := fun r call => call.1.Allowed r.2
  step := fun r call =>
    let taken := call.1.apply file call.2 r.2
    .ok (r.1 ++ taken.1.getD [], taken.2)

/-- What a read from a position can give. -/
def Fetched (p : ℕ) : ReadState → Prop
  | .dataAvailable bytes => bytes ≠ [] ∧ bytes <+: file.drop p
  | .closed => file.length ≤ p
  | _ => False

/-- What the state of a stream at a position can be. -/
def Good (p : ℕ) : ReadState → Prop
  | .idle => True
  | .waiting task => Fetched file p task
  | state => Fetched file p state

/-- A call takes the next bytes of the file, at most `size` of them, and reports the end of the
file only there; a call of length zero succeeds on a stream that is not closed. -/
structure Takes (o : Taken) : Prop where
  good : Good file o.2.position o.2.state
  bytes : o.1.getD [] <+: file.drop s.position
  position : o.2.position = s.position + (o.1.getD []).length
  length : (o.1.getD []).length ≤ size
  closed : o.1 = none → file.length ≤ o.2.position
  zero : size = 0 → s.state ≠ .closed → o.1 = some []

variable {file s size}

/-- A read fetches bytes from its position. -/
theorem fetched_blockingReadAt {p : ℕ} (h : size ≠ 0) :
    Fetched file p (blockingReadAt file short size p) := by
  rw [blockingReadAt]
  split
  · rename_i heq
    simpa [maxReadSizeAlloc, h, Fetched] using heq
  · rename_i hne
    exact ⟨hne, (List.take_prefix _ _).trans (List.take_prefix _ _)⟩

theorem good_of_fetched {p : ℕ} {r : ReadState} (h : Fetched file p r) :
    Good file p r := by
  cases r with
  | idle | waiting => exact h.elim
  | _ => exact h

theorem takes_nothing {r : ReadState} (h : Good file s.position r) :
    Takes file s size (some [], ⟨s.position, r⟩) := by
  constructor
  · exact h
  all_goals simp

/-- The read may find another state than the call did, after a wait. -/
theorem read_takes {r : ReadState} (h : Good file s.position r)
    (hz : size = 0 → s.state ≠ .closed → r ≠ .closed) :
    Takes file s size (read file short ⟨s.position, r⟩ size) := by
  cases r with
  | idle =>
    simp only [read]
    split
    · exact takes_nothing h
    · apply takes_nothing
      exact fetched_blockingReadAt short ‹_›
  | waiting task => exact takes_nothing h
  | closed =>
    refine ⟨h, List.nil_prefix, rfl, Nat.zero_le _, fun _ => h, fun h0 hs => ?_⟩
    exact absurd rfl (hz h0 hs)
  | dataAvailable bytes =>
    have hpre : bytes <+: file.drop s.position := h.2
    constructor
    · simp only [read]
      split
      · trivial
      rename_i hne
      have hlt := List.drop_eq_nil_iff.not.mp hne
      obtain ⟨rest, hrest⟩ := hpre
      refine ⟨hne, rest, ?_⟩
      rw [Nat.min_eq_right (by omega), ← List.drop_drop, ← hrest,
        List.drop_append_of_le_length (by omega)]
    · exact (List.take_prefix _ _).trans hpre
    · simp [read, Nat.min_comm]
    · simp [read]
    · simp [read]
    · simp +contextual [read]

/-- A blocking read takes the next bytes. -/
theorem blockingRead_takes (h : Good file s.position s.state)
    (hzero : size = 0 → s.state ≠ .idle ∧ s.state ≠ .waiting .closed) :
    Takes file s size (s.blockingRead file short size) := by
  obtain ⟨p, state⟩ := s
  cases state with
  | idle =>
    have hsize : size ≠ 0 := fun h0 => (hzero h0).1 rfl
    apply read_takes short (good_of_fetched (fetched_blockingReadAt short hsize))
    exact fun h0 => absurd h0 hsize
  | waiting task =>
    cases task with
    | idle | waiting => exact h.elim
    | closed => exact read_takes short (r := .closed) h fun h0 => absurd rfl (hzero h0).2
    | dataAvailable bytes => exact read_takes short (r := .dataAvailable bytes) h nofun
  | dataAvailable bytes => exact read_takes short h nofun
  | closed => exact read_takes short h fun _ hs => hs

theorem good_ready (h : Good file s.position s.state) :
    ∃ r, s.ready file short = ⟨s.position, r⟩ ∧ Good file s.position r := by
  obtain ⟨p, state⟩ := s
  cases state with
  | idle => exact ⟨_, rfl, good_of_fetched (fetched_blockingReadAt short (by decide))⟩
  | waiting task => exact ⟨task, rfl, good_of_fetched h⟩
  | _ => exact ⟨_, rfl, h⟩

/-- Every operation takes the next bytes. -/
theorem apply_takes (op : Op) (h : Good file s.position s.state) (hop : op.Allowed s) :
    Takes file s op.len (op.apply file short s) := by
  cases op with
  | read size | skip size => exact read_takes short h fun _ hs => hs
  | blockingRead size | blockingSkip size =>
    apply blockingRead_takes short h
    cases size with
    | zero => exact fun _ => hop
    | succ n => nofun
  | ready =>
    obtain ⟨r, hr, hgood⟩ := good_ready short h
    rw [Op.apply, hr]
    exact takes_nothing hgood

/-- **The bytes taken are those of the file** from the start on, and the position is behind
them. -/
theorem reaches_inv {start : ℕ} {out : List UInt8} (h : (machine file start).Reaches (out, s)) :
    out <+: file.drop start ∧ s.position = start + out.length ∧ Good file s.position s.state := by
  refine Machine.Reaches.invariant (P := fun r => r.1 <+: file.drop start ∧
    r.2.position = start + r.1.length ∧ Good file r.2.position r.2.state) ?_ ?_ h
  · rintro _ rfl
    exact ⟨List.nil_prefix, rfl, trivial⟩
  · rintro ⟨out, s⟩ ⟨op, short⟩ _ ⟨⟨rest, hrest⟩, hp, hgood⟩ hop hstep
    obtain rfl := Except.ok.inj hstep
    have T := apply_takes short op hgood hop
    dsimp only at hrest hp ⊢
    refine ⟨?_, ?_, T.good⟩
    · have hbytes := T.bytes
      rw [hp, ← List.drop_drop, ← hrest, List.drop_left] at hbytes
      rw [← hrest]
      exact (List.prefix_append_right_inj _).mpr hbytes
    · rw [T.position, hp, List.length_append, Nat.add_assoc]

/-- **A file input stream reads the file**, unless a blocking call of length zero finds it idle
or at the end of the file. -/
theorem file_stream_takes {start : ℕ} {out : List UInt8}
    (h : (machine file start).Reaches (out, s)) (op : Op) (short : ℕ) (hop : op.Allowed s) :
    out <+: file.drop start ∧ s.position = start + out.length ∧
      Takes file s op.len (op.apply file short s) := by
  obtain ⟨hout, hp, hgood⟩ := reaches_inv h
  exact ⟨hout, hp, apply_takes short op hgood hop⟩

/-- A blocking read takes one of three bytes that a pending read has fetched, and a blocking call
of length zero finds the other two. -/
theorem file_stream_takes_partly : ∃ s,
    (machine [7, 8, 9] 0).Reaches ([7], s) ∧ s = ⟨1, .dataAvailable [8, 9]⟩ ∧
      ((Op.blockingRead 0).apply [7, 8, 9] 0 s).1 = some [] ∧
      Takes [7, 8, 9] s 0 ((Op.blockingRead 0).apply [7, 8, 9] 0 s) := by
  have hpending : (machine [7, 8, 9] 0).Reaches ([], ⟨0, .waiting (.dataAvailable [7, 8, 9])⟩) :=
    .step (i := (.read 3, 2)) (.start rfl) trivial rfl
  have hpartly : (machine [7, 8, 9] 0).Reaches ([7], ⟨1, .dataAvailable [8, 9]⟩) :=
    .step (i := (.blockingRead 1, 0)) hpending trivial rfl
  exact ⟨_, hpartly, rfl, rfl, (file_stream_takes hpartly (.blockingRead 0) 0 ⟨nofun, nofun⟩).2.2⟩

/-- A blocking read of no bytes closes a new stream on a file of one byte. -/
theorem blockingRead_zero_closes : (machine [7] 0).Reaches ([], ⟨0, .idle⟩) ∧
    (Op.apply [7] 0 ⟨0, .idle⟩ (.blockingRead 0)) = (none, ⟨0, .closed⟩) ∧ ¬[7].length ≤ 0 :=
  ⟨.start rfl, rfl, by decide⟩

/-! ## Reading to the end -/

/-- A read that waits: it blocks, or it is made once the stream is ready. -/
structure WaitingRead where
  polled : Bool
  short : ℕ
  size : ℕ

/-- A read that waits first. -/
def WaitingRead.apply (c : WaitingRead) (file : List UInt8) (s : FileInputStream) : Taken :=
  if c.polled then (s.ready file c.short).read file c.short c.size
  else s.blockingRead file c.short c.size

/-- The bytes that are read until the stream is closed. -/
def readToEnd (file : List UInt8) : List WaitingRead → FileInputStream → Option (List UInt8)
  | [], _ => none
  | c :: calls, s =>
    match c.apply file s with
    | (none, _) => some []
    | (some bytes, s) => (readToEnd file calls s).map (bytes ++ ·)

/-- A read that waits finds what was fetched. -/
theorem WaitingRead.apply_eq {c : WaitingRead} (hsize : c.size ≠ 0)
    (h : Good file s.position s.state) :
    ∃ r, Fetched file s.position r ∧ c.apply file s = read file c.short ⟨s.position, r⟩ c.size := by
  obtain ⟨p, state⟩ := s
  obtain ⟨polled, short, size⟩ := c
  cases state with
  | idle =>
    cases polled with
    | true => exact ⟨_, fetched_blockingReadAt short (by decide), rfl⟩
    | false => exact ⟨_, fetched_blockingReadAt short hsize, rfl⟩
  | waiting task =>
    refine ⟨task, h, ?_⟩
    cases task with
    | idle | waiting => exact h.elim
    | _ => cases polled <;> rfl
  | dataAvailable bytes =>
    refine ⟨.dataAvailable bytes, h, ?_⟩
    cases polled <;> rfl
  | closed =>
    refine ⟨.closed, h, ?_⟩
    cases polled <;> rfl

/-- Enough reads take the rest of the file. -/
theorem readToEnd_eq {calls : List WaitingRead} (hsize : ∀ c ∈ calls, c.size ≠ 0)
    (h : Good file s.position s.state) (hlen : file.length - s.position < calls.length) :
    readToEnd file calls s = some (file.drop s.position) := by
  induction calls generalizing s with
  | nil => cases hlen
  | cons c calls ih =>
    have hc := hsize c (.head _)
    obtain ⟨r, hr, heq⟩ := c.apply_eq hc h
    have T := read_takes c.short (good_of_fetched hr) fun h0 => absurd h0 hc
    rw [readToEnd, heq]
    cases r with
    | idle | waiting => exact hr.elim
    | closed => simp [read, List.drop_eq_nil_iff.mpr hr]
    | dataAvailable bytes =>
      -- At least one byte is taken, so one call less is enough for the rest.
      have hpos := List.length_pos_of_ne_nil hr.1
      have hle := hr.2.length_le
      have hnext := ih (fun c hc => hsize c (.tail _ hc)) T.good (by
        simp only [read, List.length_drop, List.length_cons] at *
        omega)
      obtain ⟨rest, hrest⟩ : bytes.take c.size <+: file.drop s.position := T.bytes
      simp only [read] at hnext ⊢
      rw [hnext, Option.map_some, Nat.min_comm, ← List.length_take, ← List.drop_drop, ← hrest,
        List.drop_left]

/-- **Reading to the end.**  Whatever calls led to a stream, waiting reads of at least a byte give
the rest of the file and then find the stream closed, after at most one call for each byte left. -/
theorem readToEnd_drains {start : ℕ} {out : List UInt8}
    (h : (machine file start).Reaches (out, s)) {calls : List WaitingRead}
    (hsize : ∀ c ∈ calls, c.size ≠ 0)
    (hlen : file.length - s.position < calls.length) :
    ∃ rest, readToEnd file calls s = some rest ∧ out ++ rest = file.drop start := by
  obtain ⟨⟨rest, hrest⟩, hp, hgood⟩ := reaches_inv h
  refine ⟨_, readToEnd_eq hsize hgood hlen, ?_⟩
  rw [hp, ← List.drop_drop, ← hrest, List.drop_left]

/-- A read has been started, and polled reads of a short system take a byte at a time. -/
theorem readToEnd_drains_pending : ∃ s, (machine [7, 8, 9] 1).Reaches ([], s) ∧
    ∃ rest, readToEnd [7, 8, 9] (.replicate 3 ⟨true, 0, 5⟩) s = some rest ∧ rest = [8, 9] :=
  have h : (machine [7, 8, 9] 1).Reaches ([], _) :=
    .step (i := (.read 2, 0)) (.start rfl) trivial rfl
  ⟨_, h, readToEnd_drains h (by decide) (by decide)⟩

end FileInputStream

end WasmDeps.Wasi
