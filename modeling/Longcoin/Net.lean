import Longcoin.Library.Bytes
import Longcoin.Library.Framing

/-! The framing of messages on a connection (`protocol.cpp`, `net.cpp`, `main.cpp`): the queue of the
sender, the reassembly at the receiver and the dispatch. The connection stays open: `send` takes some bytes
or none, and no handler asks for a disconnect. -/

namespace Longcoin.Net
open Library Bytes

def MESSAGE_START_SIZE : Nat := 4
def COMMAND_SIZE : Nat := 12
def HEADER_SIZE : Nat := 24
def MESSAGE_SIZE_OFFSET : Nat := 16
def CHECKSUM_OFFSET : Nat := 20
def MAX_SIZE : Nat := 0x02000000
def MAX_PROTOCOL_MESSAGE_LENGTH : Nat := 2 * 1024 * 1024

/-- What both nodes share: the magic bytes of the network and the double hash. -/
structure Network where
  messageStart : List UInt8
  start_size : messageStart.length = MESSAGE_START_SIZE
  hash : List UInt8 → List UInt8
  hash_size : ∀ bytes, (hash bytes).length = 32

structure CMessageHeader where
  pchMessageStart : List UInt8
  pchCommand : List UInt8 := List.replicate COMMAND_SIZE 0
  nMessageSize : Nat := 0xffffffff
  nChecksum : Nat := 0
deriving DecidableEq

/-- `strncpy` into a buffer: the string up to its end, then zeros. -/
def strncpy (source : List UInt8) (size : Nat) : List UInt8 :=
  let copied := (source.takeWhile (· != 0)).take size
  copied ++ List.replicate (size - copied.length) 0

def memcpy (buffer : List UInt8) (position : Nat) (bytes : List UInt8) : List UInt8 :=
  buffer.take position ++ (bytes ++ buffer.drop (position + bytes.length))

namespace CMessageHeader

def serialize (hdr : CMessageHeader) : List UInt8 :=
  hdr.pchMessageStart ++ (hdr.pchCommand ++ (littleBytes 4 hdr.nMessageSize ++ littleBytes 4 hdr.nChecksum))

def unserialize (hdrbuf : List UInt8) : CMessageHeader where
  pchMessageStart := hdrbuf.take 4
  pchCommand := (hdrbuf.drop 4).take 12
  nMessageSize := little ((hdrbuf.drop 16).take 4)
  nChecksum := little ((hdrbuf.drop 20).take 4)

def getCommand (hdr : CMessageHeader) : List UInt8 := hdr.pchCommand.takeWhile (· != 0)

/-- The loop of `IsValid` over the command: printable up to the first zero, and zeros after it. -/
def commandValid : List UInt8 → Bool
  | [] => true
  | p1 :: rest =>
      if p1 = 0 then rest.all (· == 0)
      else if p1 < 0x20 ∨ 0x7E < p1 then false
      else commandValid rest

def isValid (hdr : CMessageHeader) (messageStart : List UInt8) : Bool :=
  hdr.pchMessageStart == messageStart && commandValid hdr.pchCommand && decide (hdr.nMessageSize ≤ MAX_SIZE)

end CMessageHeader

structure Sender where
  ssSend : List UInt8 := []
  vSendMsg : List (List UInt8) := []
  nSendOffset : Nat := 0
  nSendSize : Nat := 0
  /-- The bytes that `send` has taken. -/
  sent : List UInt8 := []

namespace Sender

/-- The loop of `SocketSendData` from the first entry on. Each call of `send` takes the next number of
`results`, and at most what it is given; zero is a call that would block. Nothing when an assertion fails. -/
def sendLoop : List (List UInt8) → List Nat → Sender → Option Sender
  | [], _, node => if node.nSendOffset = 0 ∧ node.nSendSize = 0 then some { node with vSendMsg := [] } else none
  | data :: rest, results, node =>
      if node.nSendOffset < data.length then
        let nBytes := min (results.headD 0) (data.length - node.nSendOffset)
        if 0 < nBytes then
          let node := { node with
            sent := node.sent ++ (data.drop node.nSendOffset).take nBytes
            nSendOffset := node.nSendOffset + nBytes }
          if node.nSendOffset = data.length then
            sendLoop rest results.tail { node with nSendOffset := 0, nSendSize := node.nSendSize - data.length }
          else some { node with vSendMsg := data :: rest }
        else some { node with vSendMsg := data :: rest }
      else none

def socketSendData (results : List Nat) (node : Sender) : Option Sender := sendLoop node.vSendMsg results node

def beginMessage (network : Network) (pszCommand : List UInt8) (node : Sender) : Option Sender :=
  let hdr : CMessageHeader :=
    { pchMessageStart := network.messageStart, pchCommand := strncpy pszCommand COMMAND_SIZE, nMessageSize := 0 }
  if node.ssSend.length = 0 then some { node with ssSend := hdr.serialize } else none

def finish (network : Network) (ssSend : List UInt8) : List UInt8 :=
  let nSize := (ssSend.length - HEADER_SIZE) % 2 ^ 32
  let ssSend := memcpy ssSend MESSAGE_SIZE_OFFSET (littleBytes 4 nSize)
  memcpy ssSend CHECKSUM_OFFSET ((network.hash (ssSend.drop HEADER_SIZE)).take 4)

def endMessage (network : Network) (results : List Nat) (node : Sender) : Option Sender :=
  if node.ssSend.length = 0 then some node
  else if CHECKSUM_OFFSET + 4 ≤ node.ssSend.length then
    let data := finish network node.ssSend
    let next := { node with ssSend := [], vSendMsg := node.vSendMsg ++ [data], nSendSize := node.nSendSize + data.length }
    -- optimistic write
    if node.vSendMsg.isEmpty then next.socketSendData results else some next
  else none

def pushMessage (network : Network) (pszCommand payload : List UInt8) (results : List Nat) (node : Sender) : Option Sender :=
  (node.beginMessage network pszCommand).bind fun node =>
    endMessage network results { node with ssSend := node.ssSend ++ payload }

end Sender

structure CNetMessage where
  in_data : Bool := false
  hdrbuf : List UInt8 := List.replicate HEADER_SIZE 0
  hdr : CMessageHeader
  nHdrPos : Nat := 0
  vRecv : List UInt8 := []
  nDataPos : Nat := 0

namespace CNetMessage

def complete (msg : CNetMessage) : Bool := msg.in_data && decide (msg.hdr.nMessageSize = msg.nDataPos)

/-- The number of bytes that were handled, or nothing for -1. -/
def readHeader (pch : List UInt8) (msg : CNetMessage) : Option Nat × CNetMessage :=
  let nRemaining := 24 - msg.nHdrPos
  let nCopy := min nRemaining pch.length
  let msg := { msg with hdrbuf := memcpy msg.hdrbuf msg.nHdrPos (pch.take nCopy), nHdrPos := msg.nHdrPos + nCopy }
  if msg.nHdrPos < 24 then (some nCopy, msg)
  else
    let msg := { msg with hdr := .unserialize msg.hdrbuf }
    if MAX_SIZE < msg.hdr.nMessageSize then (none, msg) else (some nCopy, { msg with in_data := true })

def resize (buffer : List UInt8) (size : Nat) : List UInt8 := buffer.take size ++ List.replicate (size - buffer.length) 0

def readData (pch : List UInt8) (msg : CNetMessage) : Nat × CNetMessage :=
  let nRemaining := msg.hdr.nMessageSize - msg.nDataPos
  let nCopy := min nRemaining pch.length
  -- up to 256 KiB ahead, but never more than the total message size
  let vRecv :=
    if msg.vRecv.length < msg.nDataPos + nCopy then resize msg.vRecv (min msg.hdr.nMessageSize (msg.nDataPos + nCopy + 256 * 1024))
    else msg.vRecv
  (nCopy, { msg with vRecv := memcpy vRecv msg.nDataPos (pch.take nCopy), nDataPos := msg.nDataPos + nCopy })

end CNetMessage

/-- The last message, or a new one when that is complete, and the messages before it. -/
def back (network : Network) (vRecvMsg : List CNetMessage) : List CNetMessage × CNetMessage :=
  match vRecvMsg.getLast? with
  | none => (vRecvMsg, { hdr := { pchMessageStart := network.messageStart } })
  | some msg => if msg.complete then (vRecvMsg, { hdr := { pchMessageStart := network.messageStart } }) else (vRecvMsg.dropLast, msg)

/-- The loop of `ReceiveMsgBytes`. It returns false when a header is refused: the number is that of the bytes
up to the last one of that header. A turn handles at least one byte. -/
def receiveLoop (network : Network) : Nat → List UInt8 → List CNetMessage → List CNetMessage × Option Nat
  | 0, _, vRecvMsg => (vRecvMsg, none)
  | turns + 1, pch, vRecvMsg =>
      if pch.isEmpty then (vRecvMsg, none)
      else
        let (front, msg) := back network vRecvMsg
        let (handled, read) :=
          if !msg.in_data then msg.readHeader pch else (some (msg.readData pch).1, (msg.readData pch).2)
        match handled with
        | none => (front ++ [read], some (read.nHdrPos - msg.nHdrPos))
        | some handled =>
            if read.in_data && decide (MAX_PROTOCOL_MESSAGE_LENGTH < read.hdr.nMessageSize) then (front ++ [read], some handled)
            else
              let (vRecvMsg, refused) := receiveLoop network turns (pch.drop handled) (front ++ [read])
              (vRecvMsg, refused.map (handled + ·))

def receiveMsgBytes (network : Network) (pch : List UInt8) (vRecvMsg : List CNetMessage) : List CNetMessage × Option Nat :=
  receiveLoop network pch.length pch vRecvMsg

/-- One call for each part of a cut stream, up to the first that returns false. -/
def receiveCuts (network : Network) : List (List UInt8) → List CNetMessage → List CNetMessage × Option Nat
  | [], vRecvMsg => (vRecvMsg, none)
  | cut :: rest, vRecvMsg =>
      match receiveMsgBytes network cut vRecvMsg with
      | (vRecvMsg, some n) => (vRecvMsg, some n)
      | (vRecvMsg, none) =>
          ((receiveCuts network rest vRecvMsg).1, (receiveCuts network rest vRecvMsg).2.map (cut.length + ·))

/-- The loop of `ProcessMessages`: `fOk`, the command and payload that are dispatched, and the messages that are left. -/
def processLoop (network : Network) : List CNetMessage → Bool × Option (List UInt8 × List UInt8) × List CNetMessage
  | [] => (true, none, [])
  | msg :: rest =>
      if !msg.complete then (true, none, msg :: rest)
      else if msg.hdr.pchMessageStart ≠ network.messageStart then (false, none, rest)
      else if !msg.hdr.isValid network.messageStart then processLoop network rest
      else if little ((network.hash (msg.vRecv.take msg.hdr.nMessageSize)).take 4) ≠ msg.hdr.nChecksum then processLoop network rest
      else (true, some (msg.hdr.getCommand, msg.vRecv), rest)

/-- `ProcessMessages`; `busy` when requests are pending or the send buffer is full. -/
def processMessages (network : Network) (busy : Bool) (vRecvMsg : List CNetMessage) :
    Bool × Option (List UInt8 × List UInt8) × List CNetMessage :=
  if busy then (true, none, vRecvMsg) else processLoop network vRecvMsg

end Longcoin.Net
