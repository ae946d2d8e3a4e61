/-!
# Pipes

A pipe holds a bounded number of bytes between a writer and a reader. A write that finds too little
room for all of its bytes writes what it can once there is a page of room. Main statements:
`accepted_append_rejected`, no byte is lost by a write, and `append_read`, nor by a read.
-/

namespace ToneRelay.Generator

/-- The bytes that a pipe holds. -/
def pipeCapacity : Nat := 65536

/-- The room for which a write waits that does not fit. -/
def pageSize : Nat := 4096

/-- A pipe. -/
structure Pipe where
  bytes : List UInt8 := []
  room : Nat := pipeCapacity
  length_add_room : bytes.length + room = pipeCapacity := by rfl
deriving DecidableEq, Repr

namespace Pipe

/-- The bytes of a write for which there is room now. -/
def accepted (p : Pipe) (bytes : List UInt8) : List UInt8 :=
  if pageSize ≤ p.room ∨ (bytes.drop p.room).isEmpty then bytes.take p.room else []

theorem length_accepted_le (p : Pipe) (bytes : List UInt8) :
    (p.accepted bytes).length ≤ p.room := by
  unfold accepted; split
  · exact List.length_take_le _ _
  · exact Nat.zero_le _

/-- The bytes of a write that are still to be written. -/
def rejected (p : Pipe) (bytes : List UInt8) : List UInt8 :=
  if pageSize ≤ p.room ∨ (bytes.drop p.room).isEmpty then bytes.drop p.room else bytes

/-- The pipe after a write. -/
def write (p : Pipe) (bytes : List UInt8) : Pipe where
  bytes := p.bytes ++ p.accepted bytes
  room := p.room - (p.accepted bytes).length
  length_add_room := by
    have := p.length_accepted_le bytes
    have := p.length_add_room
    simp only [List.length_append]
    omega

/-- The pipe after a read of at most `max` bytes. -/
def read (p : Pipe) (max : Nat) : Pipe where
  bytes := p.bytes.drop max
  room := p.room + (p.bytes.take max).length
  length_add_room := by
    have := p.length_add_room
    simp only [List.length_drop, List.length_take]
    omega

@[simp] theorem accepted_append_rejected (p : Pipe) (bytes : List UInt8) :
    p.accepted bytes ++ p.rejected bytes = bytes := by
  unfold accepted rejected; split <;> simp

@[simp] theorem append_read (p : Pipe) (max : Nat) :
    p.bytes.take max ++ (p.read max).bytes = p.bytes := by
  simp [read]

end Pipe

end ToneRelay.Generator
