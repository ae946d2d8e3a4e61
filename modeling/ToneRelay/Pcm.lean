/-!
# The audio format

Generators write interleaved signed little-endian samples without a header. This module holds the
numbers that describe that format and the size of a recording of a given length, once as a number
and once as it is computed in words of sixty-four bits. Main statement: `bytesForMillis_eq`, the
size is six bytes for each of the `441 / 10` frames in a millisecond.
-/

namespace ToneRelay.Pcm

/-- Samples per second and channel. -/
def sampleRate : Nat := 44100

/-- Bits in one sample. -/
def bitDepth : Nat := 24

/-- Interleaved channels. -/
def channels : Nat := 2

/-- The encoding of a sample, as audio tools name it. -/
def encoding : String := "signed-integer"

/-- The byte order of a sample. -/
def endianness : String := "little"

/-- The content type of a raw stream. -/
def contentType : String := "audio/x-raw"

/-- Bytes in one sample of one channel. -/
def bytesPerSample : Nat := bitDepth / 8

/-- Bytes in one frame, a sample of every channel. -/
def bytesPerFrame : Nat := bytesPerSample * channels

/-- The size of `ms` milliseconds of audio: whole frames only. -/
def bytesForMillis (ms : Nat) : Nat := ms * sampleRate / 1000 * bytesPerFrame

/-- The size of a session of `minutes` minutes. -/
def bytesForMinutes (minutes : Nat) : Nat := bytesForMillis (minutes * 60000)

/-- A number as a word, if it fits in one. -/
def word? (n : Nat) : Option UInt64 := if n < UInt64.size then some (.ofNat n) else none

/-- The milliseconds in `minutes` minutes, unless they overflow. -/
def millis? (minutes : UInt32) : Option UInt64 := word? (minutes.toNat * 60000)

/-- The size of `ms` milliseconds of audio, unless one of the two products overflows. -/
def bytesForMillis? (ms : UInt64) : Option UInt64 := do
  let samples ← word? (ms.toNat * sampleRate)
  word? ((samples / 1000).toNat * bytesPerFrame)

/-- The size of a session of `minutes` minutes, unless it overflows. -/
def bytesForMinutes? (minutes : UInt32) : Option UInt64 := do
  bytesForMillis? (← millis? minutes)

theorem bytesForMillis_eq (ms : Nat) : bytesForMillis ms = 6 * (ms * 441 / 10) := by
  simp only [bytesForMillis, sampleRate, bytesPerFrame, bytesPerSample, bitDepth, channels]
  omega

theorem bytesForMinutes_eq (minutes : Nat) : bytesForMinutes minutes = 15876000 * minutes := by
  simp only [bytesForMinutes, bytesForMillis_eq]
  omega

end ToneRelay.Pcm
