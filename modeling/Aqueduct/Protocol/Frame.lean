import Aqueduct.Protocol.Extensions

/-!
The wire frame of `internal/protocol/frame.go`: header
`[Magic:1][Command:1][StreamID:4][DataLen:4]`, an optional extension block
when bit 6 of the command is set, then the payload. `parseFrame` reads one
frame from the front of a buffer, `parseBatch` walks a buffer of frames.
A nil slice of the source is the empty list.
-/

namespace Aqueduct.Protocol

open ByteStr

abbrev Command := UInt8

def magicByte : UInt8 := 0x1F
def headerSize : Nat := 10
def meshForwardedBit : Command := 0x80
def hasExtensionsBit : Command := 0x40

def cmdPublish : Command := 1
def cmdSubscribe : Command := 2
def cmdUnsubscribe : Command := 3
def cmdAck : Command := 4
def cmdPublishBatch : Command := 5
def cmdNack : Command := 6

structure Frame where
  command : Command
  streamID : UInt32
  payloadLen : UInt32
  payload : Bytes
  extensions : Bytes
  deriving DecidableEq, Repr

namespace Frame

def dataLen (f : Frame) : UInt32 :=
  if 0 < f.extensions.length then UInt32.ofNat f.extensions.length + f.payloadLen
  else f.payloadLen

def size (f : Frame) : Nat := headerSize + f.dataLen.toNat

def hasExtensions (f : Frame) : Bool := 0 < f.extensions.length

/-- The priority every publish path derives from the frame. -/
def priority (f : Frame) : UInt8 :=
  if f.hasExtensions then (extractPriority f.extensions).getD defaultPriority
  else defaultPriority

end Frame

def isForwarded (cmd : Command) : Bool := cmd &&& meshForwardedBit ≠ 0

def setForwarded (cmd : Command) : Command := cmd ||| meshForwardedBit

/-- The bare opcode: both control bits cleared. -/
def opcodeOf (cmd : Command) : Command := cmd &&& ~~~meshForwardedBit &&& ~~~hasExtensionsBit

inductive FrameError
  | tooShort
  | invalidMagic
  | unknownCommand
  | truncated
  | tooShortForExtensions
  | extensionsTooLarge
  | extensionsExceedData
  deriving DecidableEq, Repr

def FrameError.text : FrameError → String
  | .tooShort => "frame too short for header"
  | .invalidMagic => "invalid magic byte"
  | .unknownCommand => "unknown command"
  | .truncated => "frame truncated: data exceeds buffer length"
  | .tooShortForExtensions => "frame too short for extension header"
  | .extensionsTooLarge => "extension block exceeds max size"
  | .extensionsExceedData => "extensions exceed declared data length"

/-- The declared data length of a header, at offset 6. -/
def payloadLenAt (buf : Bytes) : UInt32 :=
  if buf.length < headerSize then 0 else UInt32.ofNat (le (slice buf 6 4))

/-- The extension block and payload of a frame whose header was accepted. -/
def parseFrameBody (buf : Bytes) (rawCmd : Command) (streamID : UInt32) (dataLen : Nat) :
    Except FrameError Frame :=
  if rawCmd &&& hasExtensionsBit ≠ 0 then
    if dataLen < extHeaderLen then .error .tooShortForExtensions
    else
      let extTotal := extTotalLen buf headerSize
      if extTotal > maxExtTotalLen then .error .extensionsTooLarge
      else if headerSize + extBlockSize extTotal > headerSize + dataLen then
        .error .extensionsExceedData
      else
        .ok {
          command := rawCmd
          streamID := streamID
          payloadLen := UInt32.ofNat (dataLen - extBlockSize extTotal)
          payload := slice buf (headerSize + extBlockSize extTotal)
            (dataLen - extBlockSize extTotal)
          extensions := slice buf headerSize (extBlockSize extTotal) }
  else
    .ok {
      command := rawCmd
      streamID := streamID
      payloadLen := UInt32.ofNat dataLen
      payload := slice buf headerSize dataLen
      extensions := [] }

def parseFrame (buf : Bytes) : Except FrameError Frame :=
  if buf.length < headerSize then .error .tooShort
  else if buf.getD 0 0 ≠ magicByte then .error .invalidMagic
  else
    let rawCmd := buf.getD 1 0
    let cmd := rawCmd &&& ~~~meshForwardedBit &&& ~~~hasExtensionsBit
    if cmd < cmdPublish ∨ cmd > cmdNack then .error .unknownCommand
    else
      let streamID := UInt32.ofNat (le (slice buf 2 4))
      let dataLen := le (slice buf 6 4)
      if buf.length < headerSize + dataLen then .error .truncated
      else parseFrameBody buf rawCmd streamID dataLen

def serializeFrame (cmd : Command) (streamID : UInt32) (payload : Bytes) : Bytes :=
  let payloadLen := UInt32.ofNat payload.length
  [magicByte, cmd] ++ toLE 4 streamID.toNat ++ toLE 4 payloadLen.toNat ++
    payload.take payloadLen.toNat

def serializeFrameWithExtensions (cmd : Command) (streamID : UInt32)
    (extensions payload : Bytes) : Bytes :=
  let payloadLen := UInt32.ofNat payload.length
  let dataLen := UInt32.ofNat extensions.length + payloadLen
  [magicByte, cmd ||| hasExtensionsBit] ++ toLE 4 streamID.toNat ++ toLE 4 dataLen.toNat ++
    extensions ++ payload.take payloadLen.toNat

/-! ## Batches -/

inductive BatchError
  | headerTruncated
  | invalidMagic
  | unknownCommand
  | truncated
  deriving DecidableEq, Repr

def BatchError.text : BatchError → String
  | .headerTruncated => "batch frame too short: header truncated"
  | .invalidMagic => "invalid magic byte in batch frame"
  | .unknownCommand => "unknown command in batch frame"
  | .truncated => "batch frame truncated: data exceeds remaining buffer"

/-- The length of the frame at `offset`; the source returns the slice of that
length at `offset` together with the next offset. -/
def parseBatchFrame (buf : Bytes) (offset : Nat) : Except BatchError Nat :=
  let remaining := buf.drop offset
  if remaining.length < headerSize then .error .headerTruncated
  else if remaining.getD 0 0 ≠ magicByte then .error .invalidMagic
  else
    let opcode := opcodeOf (remaining.getD 1 0)
    if opcode < cmdPublish ∨ opcode > cmdNack then .error .unknownCommand
    else
      let totalLen := headerSize + le (slice remaining 6 4)
      if remaining.length < totalLen then .error .truncated else .ok totalLen

/-- A window `[start, start + len)` of a buffer. -/
structure Window where
  start : Nat
  len : Nat
  deriving DecidableEq, Repr

def Window.of (w : Window) (buf : Bytes) : Bytes := slice buf w.start w.len

/-- The windows `ParseBatch` passes to its callback, and the error it returns
when the callback never fails. -/
def parseBatchLoop (batchBuf : Bytes) : Nat → Nat → List Window × Option BatchError
  | 0, _ => ([], none)
  | fuel + 1, offset =>
    if offset < batchBuf.length then
      match parseBatchFrame batchBuf offset with
      | .error e => ([], some e)
      | .ok totalLen =>
        let (rest, err) := parseBatchLoop batchBuf fuel (offset + totalLen)
        (⟨offset, totalLen⟩ :: rest, err)
    else ([], none)

def parseBatch (batchBuf : Bytes) : List Window × Option BatchError :=
  parseBatchLoop batchBuf batchBuf.length 0

/-- The sub-frames `ParseBatch` visits. -/
def batchFrames (batchBuf : Bytes) : List Bytes :=
  (parseBatch batchBuf).1.map (·.of batchBuf)

/-! ## Command bits -/

/-- Facts about all 256 command bytes, decided by enumeration. -/
theorem command_cases (P : Command → Bool)
    (h : ((List.range 256).all fun n => P (UInt8.ofNat n)) = true) (c : Command) : P c := by
  have hc := List.all_eq_true.mp h c.toNat (List.mem_range.mpr c.toNat_lt)
  simpa using hc

theorem isForwarded_setForwarded (c : Command) : isForwarded (setForwarded c) = true :=
  command_cases (fun c => isForwarded (setForwarded c)) (by decide +kernel) c

end Aqueduct.Protocol
