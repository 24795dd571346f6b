import EditLex.Producer
import EditLex.Utf8

/-!
A producer over a reader of raw bytes. It hands out whole characters, keeps back a character that
a read cut short, and ends its input at the first failure to read or to decode.
-/
namespace EditLex

inductive IoKind where
  | brokenPipe | notFound | permissionDenied | unexpectedEof | wouldBlock | invalidData | other
  | interrupted
  deriving DecidableEq, Repr

def IoKind.text : IoKind → String
  | brokenPipe => "broken pipe"
  | notFound => "entity not found"
  | permissionDenied => "permission denied"
  | unexpectedEof => "unexpected end of file"
  | wouldBlock => "operation would block"
  | invalidData => "invalid data"
  | other => "other error"
  | interrupted => "operation interrupted"

/-- A failed read, with a text of its own or that of its kind. -/
structure IoError where
  kind : IoKind
  detail : Option String
  deriving DecidableEq, Repr

def IoError.text (e : IoError) : String := e.detail.getD e.kind.text

/-- One answer of a reader: bytes, of which a read may take a part, or a failure. -/
inductive ReadItem where
  | bytes (content : Bytes)
  | error (failure : IoError)
  deriving DecidableEq

/-- The answers a reader will give; after them it reads nothing. -/
abbrev Script := List ReadItem

namespace Script

def byteCount : Script → Nat
  | [] => 0
  | .bytes content :: s => content.length + byteCount s
  | .error _ :: s => byteCount s

/-- Reads at most `n` bytes, again after each interruption. -/
def read (n : Nat) : Script → Except IoError Bytes × Script
  | [] => (.ok [], [])
  | .error e :: s => if e.kind = .interrupted then read n s else (.error e, s)
  | .bytes content :: s =>
    (.ok (content.take n),
      match content.drop n with
      | [] => s
      | rest => .bytes rest :: s)

theorem byteCount_read_error {n : Nat} {s s' : Script} {e : IoError}
    (h : read n s = (.error e, s')) : byteCount s' = byteCount s := by
  induction s with
  | nil => simp [read] at h
  | cons item s ih =>
    cases item with
    | bytes content => simp [read] at h
    | error failure =>
      unfold read at h
      split at h
      · rw [ih h, byteCount]
      · simp only [Prod.mk.injEq] at h
        rw [← h.2, byteCount]

theorem byteCount_read {n : Nat} {s s' : Script} {got : Bytes}
    (h : read n s = (.ok got, s')) : got.length + byteCount s' = byteCount s := by
  induction s with
  | nil =>
    simp only [read, Prod.mk.injEq, Except.ok.injEq] at h
    simp [← h.1, ← h.2, byteCount]
  | cons item s ih =>
    cases item with
    | bytes content =>
      simp only [read, Prod.mk.injEq, Except.ok.injEq] at h
      have hl := congrArg List.length (List.take_append_drop n content)
      rw [List.length_append] at hl
      rw [← h.1, ← h.2]
      split
      · next hd =>
        rw [hd] at hl
        simpa [byteCount] using hl
      · simp only [byteCount]
        omega
    | error failure =>
      unfold read at h
      split at h
      · rw [ih h, byteCount]
      · simp at h

end Script

/-- A reader, read `chunkSize` bytes at a time. `held` is the character that the last read cut
short and `given` the number of bytes handed out. -/
structure Reader where
  script : Script
  chunkSize : Nat
  held : Bytes := []
  given : Nat := 0
  error : Option ReadFailure := none
  ended : Bool := false
  deriving DecidableEq

namespace Reader

def defaultChunkSize : Nat := 8192

/-- Reads of no bytes are taken as reads of one. -/
def ofScript (script : Script) (chunkSize : Nat := defaultChunkSize) : Reader :=
  { script, chunkSize := max chunkSize 1 }

def handOut (r : Reader) (chunk : Bytes) : Delivery Reader :=
  ⟨chunk, { r with given := r.given + chunk.length }, []⟩

def stop (r : Reader) (failure : ReadFailure) : Delivery Reader :=
  ⟨[], { r with error := some failure, ended := true }, [.readerFailed failure r.given]⟩

/-- A call: the reader is read until there is text to hand out or the input ends. Each read goes
into a buffer behind what is held; where there is no room for one, the call breaks off, and what was
held is lost. -/
def call (r : Reader) : Except Reader (Delivery Reader) :=
  if r.ended then .ok ⟨[], r, []⟩
  else if bufferLimit < r.held.length + r.chunkSize then .error { r with held := [] }
  else
    match _h : r.script.read r.chunkSize with
    | (.error e, script) => .ok (stop { r with script, held := [] } (.io e.text))
    | (.ok got, script) =>
      if _hg : got = [] then
        if r.held.isEmpty then .ok ⟨[], { r with script, ended := true }, []⟩
        else .ok (stop { r with script, held := [] } (.invalidUtf8 r.given))
      else
        let held := r.held ++ got
        match Utf8.check held with
        | ⟨_, .whole⟩ => .ok (handOut { r with script, held := [] } held)
        | ⟨valid, .malformed⟩ =>
          .ok (stop { r with script, held := [] } (.invalidUtf8 (r.given + valid)))
        | ⟨valid, .truncated⟩ =>
          let r' := { r with script, held := held.drop valid }
          if valid = 0 then call r'
          else if Utf8.Valid (held.take valid) then .ok (handOut r' (held.take valid))
          else .ok (stop r' (.invalidUtf8 r.given))
termination_by r.script.byteCount
decreasing_by
  have hb := Script.byteCount_read _h
  have hl := List.length_pos_iff.2 _hg
  omega

/-- What a call leaves to a producer: after one that broke off there is no chunk. -/
def delivery : Except Reader (Delivery Reader) → Delivery Reader
  | .ok d => d
  | .error r => ⟨[], r, []⟩

def next (r : Reader) : Delivery Reader := delivery r.call

def hasRoom (r : Reader) : Bool := r.call.isOk

/-- The bytes it may still hand out. -/
def left (r : Reader) : Nat := r.held.length + r.script.byteCount

theorem left_next (r : Reader) : (next r).chunk.length + (next r).rest.left ≤ r.left := by
  unfold next
  fun_induction call r with
  | case1 => simp [delivery]
  | case2 => simp [delivery, left]
  | case3 r _ _ e script h =>
    have := Script.byteCount_read_error h
    simp only [delivery, stop, left, List.length_nil]
    omega
  | case4 r _ _ script _ h =>
    have := Script.byteCount_read h
    simp only [delivery, left, List.length_nil] at *
    omega
  | case5 r _ _ script _ h =>
    have := Script.byteCount_read h
    simp only [delivery, stop, left, List.length_nil] at *
    omega
  | case6 r _ _ got script h _ held =>
    have := Script.byteCount_read h
    simp only [delivery, handOut, left, List.length_nil, held, List.length_append]
    omega
  | case7 r _ _ got script h _ held =>
    have := Script.byteCount_read h
    simp only [delivery, stop, left, List.length_nil]
    omega
  | case8 r _ _ got script h _ held _ r' ih =>
    have := Script.byteCount_read h
    have hl : r'.left = r.held.length + got.length + script.byteCount := by
      simp [left, held, r']
    simp only [left] at hl ⊢ ih
    omega
  | case9 r _ _ got script h _ held valid _ r' =>
    have := Script.byteCount_read h
    have := @List.length_append _ r.held got
    simp only [delivery, handOut, left, List.length_take, List.length_drop, held, r']
    omega
  | case10 r _ _ got script h _ held valid _ r' =>
    have := Script.byteCount_read h
    have := @List.length_append _ r.held got
    simp only [delivery, stop, left, List.length_nil, List.length_drop, held, r']
    omega

instance : Bounded Reader where
  next := next
  hasRoom := hasRoom
  left := left
  left_next := left_next

/-- The failure that ended the input, given out once. -/
def takeFailure (r : Reader) : Option ReadFailure × Reader := (r.error, { r with error := none })

end Reader
end EditLex
