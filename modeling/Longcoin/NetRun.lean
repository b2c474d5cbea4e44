import Longcoin.NetReceive
import Mathlib.Algebra.BigOperators.Group.List.Basic
import Mathlib.Data.List.TakeWhile

/-! A connection from the queue of one node to the dispatch of the other, over every order of queueing,
partial writes, cut reads and handler turns. -/

namespace Longcoin.Net
open Library Bytes Framing Sender List Option Bool

structure Message where
  command : List UInt8
  payload : List UInt8
  printable : ∀ c ∈ command, 0x20 ≤ c ∧ c ≤ 0x7E
  short : command.length ≤ COMMAND_SIZE
  size : payload.length ≤ MAX_PROTOCOL_MESSAGE_LENGTH

def Message.content (message : Message) : List UInt8 × List UInt8 := (message.command, message.payload)

/-- Both ends; `taken` of the sent bytes have been received, and `queued` are the messages so far. -/
structure Link where
  sender : Sender := {}
  taken : Nat := 0
  vRecvMsg : List CNetMessage := []
  dispatched : List (List UInt8 × List UInt8) := []
  queued : List Message := []

inductive Event where
  | push (message : Message) (results : List Nat)
  | send (results : List Nat)
  | receive (nBytes : Nat)
  | process (busy : Bool)

/-- Nothing when an assertion fails or the receiver closes the connection. -/
def Link.step (network : Network) (link : Link) : Event → Option Link
  | .push message results =>
      (link.sender.pushMessage network message.command message.payload results).map fun sender =>
        { link with sender := sender, queued := link.queued ++ [message] }
  | .send results => (link.sender.socketSendData results).map fun sender => { link with sender := sender }
  | .receive nBytes =>
      let pch := (link.sender.sent.drop link.taken).take nBytes
      match receiveMsgBytes network pch link.vRecvMsg with
      | (vRecvMsg, none) => some { link with vRecvMsg := vRecvMsg, taken := link.taken + pch.length }
      | (_, some _) => none
  | .process busy =>
      match processMessages network busy link.vRecvMsg with
      | (true, dispatched, vRecvMsg) =>
          some { link with vRecvMsg := vRecvMsg, dispatched := link.dispatched ++ dispatched.toList }
      | (false, _, _) => none

def Link.run (network : Network) (link : Link) (events : List Event) : Option Link := events.foldlM (Link.step network) link

variable (network : Network)

def Message.header (message : Message) : CMessageHeader where
  pchMessageStart := network.messageStart
  pchCommand := strncpy message.command COMMAND_SIZE
  nMessageSize := message.payload.length
  nChecksum := little ((network.hash message.payload).take 4)

def Message.frame (message : Message) : List UInt8 := (message.header network).serialize ++ message.payload

variable {network}

theorem length_strncpy (source : List UInt8) (size : Nat) : (strncpy source size).length = size := by
  rw [strncpy, length_append, length_replicate, length_take]
  omega

theorem Message.noZero (message : Message) : message.command.takeWhile (· != 0) = message.command := by
  refine takeWhile_eq_self_iff.mpr fun c member => ?_
  have printable := (message.printable c member).1
  rw [bne_iff_ne]
  rintro rfl
  cases printable

theorem Message.command_padded (message : Message) : strncpy message.command COMMAND_SIZE =
    message.command ++ replicate (COMMAND_SIZE - message.command.length) 0 := by
  rw [strncpy, message.noZero, take_of_length_le message.short]

theorem Message.getCommand (message : Message) : (message.header network).getCommand = message.command := by
  rw [CMessageHeader.getCommand, Message.header]
  dsimp only
  rw [message.command_padded, takeWhile_append, message.noZero, if_pos rfl]
  cases COMMAND_SIZE - message.command.length with
  | zero => rw [replicate_zero, takeWhile_nil, append_nil]
  | succ n => rw [replicate_succ, takeWhile_cons, if_neg (by decide), append_nil]

theorem commandValid_padded {command : List UInt8} (printable : ∀ c ∈ command, 0x20 ≤ c ∧ c ≤ 0x7E) (zeros : Nat) :
    CMessageHeader.commandValid (command ++ replicate zeros 0) = true := by
  induction command with
  | nil =>
    cases zeros with
    | zero => rfl
    | succ n =>
      rw [nil_append, replicate_succ, CMessageHeader.commandValid, if_pos rfl]
      exact all_eq_true.mpr fun c member => by rw [(mem_replicate.mp member).2]; rfl
  | cons c rest ih =>
    obtain ⟨low, high⟩ := printable c mem_cons_self
    rw [cons_append, CMessageHeader.commandValid, if_neg, if_neg, ih (forall_mem_cons.mp printable).2]
    · rintro (below | above)
      · exact absurd (UInt8.lt_of_lt_of_le below low) (UInt8.lt_irrefl _)
      · exact absurd (UInt8.lt_of_lt_of_le above high) (UInt8.lt_irrefl _)
    · rintro rfl
      cases low

theorem Message.header_valid (message : Message) : (message.header network).isValid network.messageStart = true := by
  have size := message.size
  have small : message.payload.length ≤ MAX_SIZE := Nat.le_trans size (by decide)
  rw [CMessageHeader.isValid, Message.header]
  dsimp only
  rw [message.command_padded, commandValid_padded message.printable, decide_eq_true small, beq_self_eq_true]
  rfl

theorem unserialize_serialize {hdr : CMessageHeader} (start : hdr.pchMessageStart.length = 4) (command : hdr.pchCommand.length = 12)
    (size : hdr.nMessageSize < 256 ^ 4) (checksum : hdr.nChecksum < 256 ^ 4) : CMessageHeader.unserialize hdr.serialize = hdr := by
  obtain ⟨pchMessageStart, pchCommand, nMessageSize, nChecksum⟩ := hdr
  dsimp only at start command size checksum
  have one : (CMessageHeader.mk pchMessageStart pchCommand nMessageSize nChecksum).serialize.take 4 = pchMessageStart := by
    rw [CMessageHeader.serialize, take_left' start]
  have two : ((CMessageHeader.mk pchMessageStart pchCommand nMessageSize nChecksum).serialize.drop 4).take 12 = pchCommand := by
    rw [CMessageHeader.serialize, drop_left' start, take_left' command]
  have three : ((CMessageHeader.mk pchMessageStart pchCommand nMessageSize nChecksum).serialize.drop 16).take 4 =
      littleBytes 4 nMessageSize := by
    rw [CMessageHeader.serialize, ← append_assoc, drop_left' (by rw [length_append, start, command]),
      take_left' (length_littleBytes 4 _)]
  have four : ((CMessageHeader.mk pchMessageStart pchCommand nMessageSize nChecksum).serialize.drop 20).take 4 =
      littleBytes 4 nChecksum := by
    rw [CMessageHeader.serialize, ← append_assoc, ← append_assoc,
      drop_left' (by rw [length_append, length_append, start, command, length_littleBytes]),
      take_of_length_le (Nat.le_of_eq (length_littleBytes 4 _))]
  rw [CMessageHeader.unserialize, one, two, three, four, little_littleBytes 4 _ size, little_littleBytes 4 _ checksum]

theorem length_serialize {hdr : CMessageHeader} (start : hdr.pchMessageStart.length = 4) (command : hdr.pchCommand.length = 12) :
    hdr.serialize.length = HEADER_SIZE := by
  rw [CMessageHeader.serialize, length_append, length_append, length_append, start, command, length_littleBytes,
    length_littleBytes]
  rfl

theorem checksum_lt (payload : List UInt8) : little ((network.hash payload).take 4) < 256 ^ 4 := by
  have size : ((network.hash payload).take 4).length = 4 := by
    rw [length_take, network.hash_size]
    rfl
  have bound := little_lt ((network.hash payload).take 4)
  rwa [size] at bound

theorem Message.length_header (message : Message) : (message.header network).serialize.length = HEADER_SIZE :=
  length_serialize network.start_size (length_strncpy _ _)

theorem Message.size_lt (message : Message) : message.payload.length < 256 ^ 4 :=
  Nat.lt_of_le_of_lt message.size (by decide)

theorem Message.read_header (message : Message) : framing.header (message.header network).serialize = some (message.header network) := by
  have size := message.size
  have small : message.payload.length ≤ MAX_SIZE := Nat.le_trans size (by decide)
  have read : CMessageHeader.unserialize (message.header network).serialize = message.header network :=
    unserialize_serialize network.start_size (length_strncpy _ _) message.size_lt (checksum_lt _)
  change (if _ then none else some (CMessageHeader.unserialize (message.header network).serialize)) = _
  rw [read, if_neg]
  rintro (large | large)
  · exact Nat.not_lt.mpr small large
  · exact Nat.not_lt.mpr size large

theorem feed_frames (messages : List Message) (done : List (CMessageHeader × List UInt8)) :
    framing.feedAll ⟨done, .header []⟩ (messages.flatMap (Message.frame network)) =
      (⟨done ++ messages.map fun message => (message.header network, message.payload), .header []⟩, none) := by
  induction messages generalizing done with
  | nil => rw [flatMap_nil, map_nil, append_nil, feedAll]
  | cons message rest ih =>
    rw [flatMap_cons, feedAll_append, Message.frame, feedAll_frame message.length_header message.read_header rfl]
    dsimp only
    rw [ih, append_assoc]
    rfl

def Sender.unsent (node : Sender) : List UInt8 := node.vSendMsg.flatten.drop node.nSendOffset

structure Sender.Sound (node : Sender) : Prop where
  ssSend : node.ssSend = []
  nSendSize : node.nSendSize = (node.vSendMsg.map List.length).sum
  filled : ∀ data ∈ node.vSendMsg, data ≠ []
  first : ∀ data ∈ node.vSendMsg.head?, node.nSendOffset < data.length
  empty : node.vSendMsg = [] → node.nSendOffset = 0

theorem sendLoop_moves (entries : List (List UInt8)) (results : List Nat) {node : Sender} (ssSend : node.ssSend = [])
    (size : node.nSendSize = (entries.map length).sum) (filled : ∀ data ∈ entries, data ≠ [])
    (first : ∀ data ∈ entries.head?, node.nSendOffset < data.length) (empty : entries = [] → node.nSendOffset = 0) :
    ∃ node', sendLoop entries results node = some node' ∧ node'.Sound ∧
      ∃ bytes, node'.sent = node.sent ++ bytes ∧ bytes ++ node'.unsent = entries.flatten.drop node.nSendOffset := by
  induction entries generalizing results node with
  | nil =>
    have offset := empty rfl
    refine ⟨{ node with vSendMsg := [] }, ?_, ⟨ssSend, size, filled, first, fun _ => offset⟩, [], (append_nil _).symm, ?_⟩
    · rw [sendLoop, if_pos ⟨offset, size⟩]
    · rw [unsent, nil_append]
  | cons data rest ih =>
    have within : node.nSendOffset < data.length := first data rfl
    have later : ∀ entry ∈ rest, entry ≠ [] := (forall_mem_cons.mp filled).2
    have stays : ∀ (sent : List UInt8) (nSendOffset : Nat), nSendOffset < data.length →
        Sound { node with sent := sent, nSendOffset := nSendOffset, vSendMsg := data :: rest } := fun sent nSendOffset below =>
      ⟨ssSend, size, filled, fun entry member => by cases member; exact below, nofun⟩
    rw [sendLoop, if_pos within]
    obtain ⟨nBytes, took⟩ : ∃ nBytes, nBytes = min (results.headD 0) (data.length - node.nSendOffset) := ⟨_, rfl⟩
    dsimp only
    rw [← took]
    have flat : (data :: rest).flatten.drop node.nSendOffset =
        (data.drop node.nSendOffset).take nBytes ++ ((data.drop (node.nSendOffset + nBytes)) ++ rest.flatten) := by
      rw [flatten_cons, drop_append_of_le_length (Nat.le_of_lt within), ← append_assoc, ← drop_drop,
        take_append_drop]
    split
    next some' =>
      split
      next whole =>
        have bytesSize : node.nSendSize - data.length = (rest.map length).sum := by
          rw [size, map_cons, sum_cons]
          omega
        obtain ⟨node', sends, sound, bytes, sent, left⟩ := @ih results.tail
          { node with
            sent := node.sent ++ (data.drop node.nSendOffset).take nBytes
            nSendOffset := 0
            nSendSize := node.nSendSize - data.length }
          ssSend bytesSize later
          (fun entry member => length_pos_iff.mpr (later entry (mem_of_mem_head? member))) fun _ => rfl
        refine ⟨node', sends, sound, (data.drop node.nSendOffset).take nBytes ++ bytes, ?_, ?_⟩
        · rw [sent, append_assoc]
        · rw [append_assoc, left, flat, whole, drop_length, nil_append, drop_zero]
      next more =>
        have below : node.nSendOffset + nBytes < data.length := by omega
        refine ⟨_, rfl, stays _ _ below, (data.drop node.nSendOffset).take nBytes, rfl, ?_⟩
        rw [flat, unsent, flatten_cons, drop_append_of_le_length (Nat.le_of_lt below)]
    next none' => exact ⟨_, rfl, stays _ _ within, [], (append_nil _).symm, rfl⟩

theorem Sender.Sound.send {node : Sender} (sound : node.Sound) (results : List Nat) : ∃ node',
    node.socketSendData results = some node' ∧ node'.Sound ∧
      ∃ bytes, node'.sent = node.sent ++ bytes ∧ bytes ++ node'.unsent = node.unsent :=
  sendLoop_moves node.vSendMsg results sound.ssSend sound.nSendSize sound.filled sound.first sound.empty

theorem memcpy_middle {front old new : List UInt8} (back : List UInt8) {position : Nat} (starts : front.length = position)
    (same : old.length = new.length) : memcpy (front ++ (old ++ back)) position new = front ++ (new ++ back) := by
  rw [memcpy, take_left' starts, ← append_assoc front old back,
    drop_left' (by rw [length_append, starts, same])]

/-- The header that `BeginMessage` writes. -/
def Message.blank (network : Network) (message : Message) : CMessageHeader where
  pchMessageStart := network.messageStart
  pchCommand := strncpy message.command COMMAND_SIZE
  nMessageSize := 0

theorem finish_frame (message : Message) :
    finish network ((message.blank network).serialize ++ message.payload) = message.frame network := by
  have front : (network.messageStart ++ strncpy message.command COMMAND_SIZE).length = MESSAGE_SIZE_OFFSET := by
    rw [length_append, network.start_size, length_strncpy]
    rfl
  have blank : (message.blank network).serialize ++ message.payload =
      (network.messageStart ++ strncpy message.command COMMAND_SIZE) ++ (littleBytes 4 0 ++ (littleBytes 4 0 ++ message.payload)) := by
    simp only [CMessageHeader.serialize, Message.blank, append_assoc]
  have length' : ((message.blank network).serialize ++ message.payload).length = HEADER_SIZE + message.payload.length := by
    rw [length_append, length_serialize network.start_size (length_strncpy _ _)]
  have number : (((message.blank network).serialize ++ message.payload).length - HEADER_SIZE) % 2 ^ 32 = message.payload.length := by
    have small := message.size_lt
    rw [length', Nat.add_sub_cancel_left]
    exact Nat.mod_eq_of_lt small
  have sized : memcpy ((message.blank network).serialize ++ message.payload) MESSAGE_SIZE_OFFSET (littleBytes 4 message.payload.length) =
      (network.messageStart ++ strncpy message.command COMMAND_SIZE) ++
        (littleBytes 4 message.payload.length ++ (littleBytes 4 0 ++ message.payload)) := by
    rw [blank, memcpy_middle _ front (by rw [length_littleBytes, length_littleBytes])]
  have header : (network.messageStart ++ strncpy message.command COMMAND_SIZE ++ littleBytes 4 message.payload.length).length =
      CHECKSUM_OFFSET := by
    rw [length_append, front, length_littleBytes]
    rfl
  have body : ((network.messageStart ++ strncpy message.command COMMAND_SIZE) ++
      (littleBytes 4 message.payload.length ++ (littleBytes 4 0 ++ message.payload))).drop HEADER_SIZE = message.payload := by
    rw [← append_assoc, ← append_assoc, drop_left' (by rw [length_append, header, length_littleBytes]; rfl)]
  have sum : ((network.hash message.payload).take 4).length = 4 := by
    rw [length_take, network.hash_size]
    rfl
  have checksum : littleBytes 4 (little ((network.hash message.payload).take 4)) = (network.hash message.payload).take 4 := by
    have back := littleBytes_little ((network.hash message.payload).take 4)
    rwa [sum] at back
  rw [finish, number, sized, body, ← append_assoc, memcpy_middle _ header (by rw [length_littleBytes, sum]), ← checksum]
  simp only [Message.frame, Message.header, CMessageHeader.serialize, append_assoc, checksum]

theorem Message.frame_some (message : Message) : message.frame network ≠ [] := by
  intro none'
  have long := congrArg length none'
  rw [Message.frame, length_append, message.length_header] at long
  cases (Nat.add_eq_zero_iff.mp long).1

theorem Sender.Sound.push {node : Sender} (sound : node.Sound) (message : Message) (results : List Nat) : ∃ node',
    node.pushMessage network message.command message.payload results = some node' ∧ node'.Sound ∧
      ∃ bytes, node'.sent = node.sent ++ bytes ∧ bytes ++ node'.unsent = node.unsent ++ message.frame network := by
  have begins : node.beginMessage network message.command = some { node with ssSend := (message.blank network).serialize } := by
    rw [beginMessage, sound.ssSend]
    rfl
  have long : ((message.blank network).serialize ++ message.payload).length = HEADER_SIZE + message.payload.length := by
    rw [length_append, length_serialize network.start_size (length_strncpy _ _)]
  have queued : Sound { node with
      ssSend := []
      vSendMsg := node.vSendMsg ++ [message.frame network]
      nSendSize := node.nSendSize + (message.frame network).length } := by
    refine ⟨rfl, ?_, fun data member => ?_, fun data member => ?_, fun none' => ?_⟩
    · dsimp only
      rw [sound.nSendSize, map_append, sum_append, map_singleton, sum_singleton]
    · rcases mem_append.mp member with old | new
      · exact sound.filled data old
      · rw [mem_singleton.mp new]
        exact message.frame_some
    · dsimp only at member ⊢
      cases queue : node.vSendMsg with
      | nil =>
        rw [queue] at member
        cases member
        rw [sound.empty queue]
        exact length_pos_iff.mpr message.frame_some
      | cons entry rest =>
        rw [queue] at member
        cases member
        exact sound.first _ (by rw [queue]; rfl)
    · exact absurd none' (by simp)
  have unsent : unsent { node with
      ssSend := []
      vSendMsg := node.vSendMsg ++ [message.frame network]
      nSendSize := node.nSendSize + (message.frame network).length } = node.unsent ++ message.frame network := by
    rw [unsent, unsent]
    dsimp only
    rw [flatten_append, flatten_singleton]
    refine drop_append_of_le_length ?_
    cases queue : node.vSendMsg with
    | nil =>
      rw [sound.empty queue]
      exact Nat.zero_le _
    | cons entry rest =>
      have below := sound.first entry (by rw [queue]; rfl)
      rw [flatten_cons, length_append]
      omega
  have ends : pushMessage network message.command message.payload results node =
      if node.vSendMsg.isEmpty then socketSendData results { node with
          ssSend := []
          vSendMsg := node.vSendMsg ++ [message.frame network]
          nSendSize := node.nSendSize + (message.frame network).length }
      else some { node with
          ssSend := []
          vSendMsg := node.vSendMsg ++ [message.frame network]
          nSendSize := node.nSendSize + (message.frame network).length } := by
    rw [pushMessage, begins, bind_some, endMessage]
    dsimp only
    rw [if_neg (by rw [long, HEADER_SIZE]; omega), if_pos (by rw [long, CHECKSUM_OFFSET, HEADER_SIZE]; omega), finish_frame]
  rw [ends]
  split
  · obtain ⟨node', sends, sound', bytes, sent, left⟩ := queued.send results
    exact ⟨node', sends, sound', bytes, sent, left.trans unsent⟩
  · exact ⟨_, rfl, queued, [], (append_nil _).symm, unsent⟩

/-- What a completed message must be for the handler to dispatch it. -/
def Dispatchable (network : Network) (frame : CMessageHeader × List UInt8) : Prop :=
  frame.1.isValid network.messageStart = true ∧ frame.2.length = frame.1.nMessageSize ∧
    little ((network.hash frame.2).take 4) = frame.1.nChecksum

theorem Message.dispatchable (message : Message) : Dispatchable network (message.header network, message.payload) :=
  ⟨message.header_valid, rfl, rfl⟩

theorem processLoop_dispatches {msg : CNetMessage} {rest : List CNetMessage} {frame : CMessageHeader × List UInt8}
    (finished : Finished msg frame) (good : Dispatchable network frame) :
    processLoop network (msg :: rest) = (true, some (frame.1.getCommand, frame.2), rest) := by
  obtain ⟨valid, size, checksum⟩ := good
  have start : frame.1.pchMessageStart = network.messageStart := by
    rw [CMessageHeader.isValid, Bool.and_eq_true, Bool.and_eq_true, beq_iff_eq] at valid
    exact valid.1.1
  have whole : frame.2.take frame.1.nMessageSize = frame.2 := List.take_of_length_le (Nat.le_of_eq size)
  rw [processLoop, finished.complete, finished.hdr, finished.vRecv, whole, valid, checksum, Bool.not_true,
    if_neg Bool.false_ne_true, if_neg (not_not.mpr start), if_neg Bool.false_ne_true, if_neg (not_not.mpr rfl)]

structure Link.Sound (network : Network) (link : Link) : Prop where
  sender : link.sender.Sound
  stream : link.sender.sent ++ link.sender.unsent = link.queued.flatMap (Message.frame network)
  taken : link.taken ≤ link.sender.sent.length
  received : ∃ gone waiting part,
    framing.feedAll {} (link.sender.sent.take link.taken) = (⟨gone ++ waiting, part⟩, none) ∧
    Represents link.vRecvMsg ⟨waiting, part⟩ ∧ link.dispatched = gone.map fun frame => (frame.1.getCommand, frame.2)

theorem Link.Sound.fed {link : Link} (sound : link.Sound network) {bytes : List UInt8} {front : Feed UInt8 CMessageHeader}
    (begins : bytes <+: link.sender.sent) (fed : (framing.feedAll {} bytes).1 = front) :
    framing.feedAll {} bytes = (front, none) ∧
      front.done <+: link.queued.map fun message => (message.header network, message.payload) := by
  obtain ⟨later, sent⟩ := begins
  have whole := @feed_frames network link.queued []
  rw [← sound.stream, ← sent, append_assoc] at whole
  obtain ⟨middle, front', rest⟩ := feedAll_front whole
  have same : middle = front := by
    rw [front'] at fed
    exact fed
  subst same
  have grows := @feedAll_grows _ _ framing middle (later ++ link.sender.unsent)
  rw [rest] at grows
  exact ⟨front', grows⟩

theorem Link.sound_start : Link.Sound network {} :=
  ⟨⟨rfl, rfl, nofun, fun _ member => (by cases member), fun _ => rfl⟩, rfl, Nat.le_refl 0,
    [], [], .header [], rfl, represents_nil, rfl⟩

section

variable {link : Link} (sound : link.Sound network)
include sound

theorem Link.Sound.expected {gone waiting : List (CMessageHeader × List UInt8)} {part : Part UInt8 CMessageHeader}
    (fed : framing.feedAll {} (link.sender.sent.take link.taken) = (⟨gone ++ waiting, part⟩, none)) :
    gone ++ waiting <+: link.queued.map fun message => (message.header network, message.payload) :=
  (sound.fed ( take_prefix _ _) (congrArg Prod.fst fed)).2

theorem Link.Sound.moved {sender : Sender} {queued : List Message} (sender' : sender.Sound)
    {bytes : List UInt8} (sent : sender.sent = link.sender.sent ++ bytes)
    (stream : sender.sent ++ sender.unsent = queued.flatMap (Message.frame network)) :
    Link.Sound network { link with sender := sender, queued := queued } := by
  refine ⟨sender', stream, ?_, ?_⟩
  · have taken := sound.taken
    dsimp only
    rw [sent, length_append]
    omega
  · dsimp only
    rw [sent, take_append_of_le_length sound.taken]
    exact sound.received

theorem Link.Sound.receive (nBytes : Nat) : ∃ link',
    link.step network (.receive nBytes) = some link' ∧ link'.Sound network := by
  obtain ⟨gone, waiting, part, fed, represents, dispatched⟩ := sound.received
  obtain ⟨pch, cut⟩ : ∃ pch, pch = (link.sender.sent.drop link.taken).take nBytes := ⟨_, rfl⟩
  have further : link.sender.sent.take (link.taken + pch.length) = link.sender.sent.take link.taken ++ pch := by
    rw [take_add, cut, length_take]
    exact congrArg _ (take_eq_take_iff.mpr (by omega))
  have within : link.taken + pch.length ≤ link.sender.sent.length := by
    have taken := sound.taken
    rw [cut, length_take, length_drop]
    omega
  have whole := (sound.fed ( take_prefix (link.taken + pch.length) _) rfl).1
  rw [further, feedAll_append, fed] at whole
  dsimp only at whole
  have onward := @feedAll_done _ _ framing gone ⟨waiting, part⟩ pch
  obtain ⟨refusals, -, more⟩ := receiveLoop_feeds network (Nat.le_refl pch.length) represents
  have accepted : (framing.feedAll ⟨waiting, part⟩ pch).2 = none := by
    have none' := congrArg Prod.snd whole
    rw [onward] at none'
    exact map_eq_none_iff.mp none'
  have received : receiveMsgBytes network pch link.vRecvMsg = ((receiveLoop network pch.length pch link.vRecvMsg).1, none) := by
    rw [receiveMsgBytes, ← accepted, ← refusals]
  refine ⟨{ link with
    vRecvMsg := (receiveLoop network pch.length pch link.vRecvMsg).1
    taken := link.taken + pch.length }, ?_, sound.sender, sound.stream, within, gone,
    (framing.feedAll ⟨waiting, part⟩ pch).1.done, (framing.feedAll ⟨waiting, part⟩ pch).1.part, ?_, more accepted, dispatched⟩
  · rw [Link.step, ← cut, received]
  · dsimp only
    rw [further, feedAll_append, fed]
    dsimp only
    rw [onward, accepted]
    rfl

theorem Link.Sound.process (busy : Bool) : ∃ link', link.step network (.process busy) = some link' ∧ link'.Sound network := by
  obtain ⟨gone, waiting, part, fed, represents, dispatched⟩ := sound.received
  have idle : ∀ {vRecvMsg}, processMessages network busy link.vRecvMsg = (true, none, vRecvMsg) → vRecvMsg = link.vRecvMsg →
      ∃ link', link.step network (.process busy) = some link' ∧ link'.Sound network := by
    rintro _ answer rfl
    refine ⟨{ link with dispatched := link.dispatched ++ [] }, by rw [Link.step, answer]; rfl, ?_⟩
    rw [List.append_nil]
    exact sound
  cases busy with
  | true => exact idle rfl rfl
  | false =>
    obtain ⟨front, tail, split', finished, rest⟩ := represents.split
    dsimp only at finished rest
    cases finished with
    | nil =>
      rcases rest with ⟨rfl, -⟩ | ⟨msg, rfl, taking⟩
      · exact idle (by rw [processMessages, split']; rfl) split'.symm
      · refine idle ?_ split'.symm
        rw [processMessages, split', if_neg Bool.false_ne_true]
        change processLoop network [msg] = _
        rw [processLoop, taking.incomplete, Bool.not_false, if_pos rfl]
        rfl
    | @cons msg frame front waiting' first later =>
      have expected := (sound.expected fed).subset (List.mem_append_right gone List.mem_cons_self)
      obtain ⟨message, -, here⟩ := List.mem_map.mp expected
      have good : Dispatchable network frame := here ▸ message.dispatchable
      have answer : processMessages network false link.vRecvMsg = (true, some (frame.1.getCommand, frame.2), front ++ tail) := by
        rw [processMessages, if_neg Bool.false_ne_true, split', List.cons_append, processLoop_dispatches first good]
      refine ⟨{ link with vRecvMsg := front ++ tail, dispatched := link.dispatched ++ [(frame.1.getCommand, frame.2)] },
        by rw [Link.step, answer]; rfl, sound.sender, sound.stream, sound.taken, gone ++ [frame], waiting', part, ?_,
        ⟨front, tail, rfl, later, rest⟩, ?_⟩
      · rw [List.append_assoc]
        exact fed
      · rw [List.map_append, ← dispatched]
        rfl

theorem Link.Sound.step (event : Event) : ∃ link', link.step network event = some link' ∧ link'.Sound network := by
  cases event with
  | push message results =>
    obtain ⟨sender, pushed, sender', bytes, sent, left⟩ := sound.sender.push message results
    refine ⟨{ link with sender := sender, queued := link.queued ++ [message] }, by rw [Link.step, pushed]; rfl,
      sound.moved sender' sent ?_⟩
    rw [sent, append_assoc, left, ← append_assoc, sound.stream, flatMap_append, flatMap_singleton]
  | send results =>
    obtain ⟨sender, sends, sender', bytes, sent, left⟩ := sound.sender.send results
    refine ⟨{ link with sender := sender }, by rw [Link.step, sends]; rfl, sound.moved sender' sent ?_⟩
    rw [sent, append_assoc, left, sound.stream]
  | receive nBytes => exact sound.receive nBytes
  | process busy => exact sound.process busy

theorem Link.Sound.run (events : List Event) : ∃ link', link.run network events = some link' ∧ link'.Sound network := by
  induction events generalizing link with
  | nil => exact ⟨link, rfl, sound⟩
  | cons event rest ih =>
    obtain ⟨next, stepped, sound'⟩ := sound.step event
    obtain ⟨last, finished, sound''⟩ := ih sound'
    refine ⟨last, ?_, sound''⟩
    rw [Link.run, foldlM_cons, stepped]
    exact finished

end

def Event.queued : Event → Option Message
  | .push message _ => some message
  | _ => none

/-- The command and the payload of a completed message. -/
def contentOf (frame : CMessageHeader × List UInt8) : List UInt8 × List UInt8 := (frame.1.getCommand, frame.2)

/-- The messages that were dispatched, and those that are completed and wait. -/
def Link.arrived (link : Link) : List (List UInt8 × List UInt8) := link.dispatched ++ (completed link.vRecvMsg).map contentOf

theorem Link.step_queued {link link' : Link} {event : Event} (stepped : link.step network event = some link') :
    link'.queued = link.queued ++ event.queued.toList := by
  cases event with
  | push message results =>
    obtain ⟨sender, -, rfl⟩ := map_eq_some_iff.mp stepped
    rfl
  | send results =>
    obtain ⟨sender, -, rfl⟩ := map_eq_some_iff.mp stepped
    exact (append_nil _).symm
  | receive nBytes =>
    rw [Link.step] at stepped
    split at stepped
    · cases stepped
      exact (append_nil _).symm
    · cases stepped
  | process busy =>
    rw [Link.step] at stepped
    split at stepped
    · cases stepped
      exact (append_nil _).symm
    · cases stepped

theorem Link.run_queued {link link' : Link} {events : List Event} (finished : link.run network events = some link') :
    link'.queued = link.queued ++ events.filterMap Event.queued := by
  induction events generalizing link with
  | nil =>
    cases finished
    exact (append_nil _).symm
  | cons event rest ih =>
    rw [Link.run, foldlM_cons] at finished
    obtain ⟨next, stepped, later⟩ := bind_eq_some_iff.mp finished
    rw [ih later, step_queued stepped, append_assoc, filterMap_cons]
    cases event.queued <;> rfl

namespace Link.Sound

variable {link : Link}

theorem arrived_eq (sound : link.Sound network) : ∃ front, framing.feedAll {} (link.sender.sent.take link.taken) = (front, none) ∧
    link.arrived = front.done.map contentOf ∧
    front.done <+: link.queued.map fun message => (message.header network, message.payload) := by
  obtain ⟨gone, waiting, part, fed, represents, dispatched⟩ := sound.received
  refine ⟨_, fed, ?_, sound.expected fed⟩
  rw [Link.arrived, represents.completed, dispatched, map_append]
  rfl

theorem contents (messages : List Message) :
    (messages.map fun message => (message.header network, message.payload)).map contentOf = messages.map Message.content := by
  rw [List.map_map]
  refine List.map_congr_left fun message _ => ?_
  exact Prod.ext message.getCommand rfl

theorem arrived_front (sound : link.Sound network) : link.arrived <+: link.queued.map Message.content := by
  obtain ⟨front, -, same, begins⟩ := sound.arrived_eq
  rw [same, ← @contents network]
  exact begins.map contentOf

theorem arrived_of_taken (sound : link.Sound network) (k : Nat)
    (received : ((link.queued.take k).flatMap (Message.frame network)).length ≤ link.taken) :
    (link.queued.take k).map Message.content <+: link.arrived := by
  obtain ⟨front, fed, same, -⟩ := sound.arrived_eq
  have stream : link.sender.sent.take link.taken = (link.queued.take k).flatMap (Message.frame network) ++
      ((link.queued.drop k).flatMap (Message.frame network)).take
        (link.taken - ((link.queued.take k).flatMap (Message.frame network)).length) := by
    have wire : (link.sender.sent ++ link.sender.unsent).take link.taken = link.sender.sent.take link.taken :=
      take_append_of_le_length sound.taken
    rw [← wire, sound.stream]
    conv => lhs; rw [← take_append_drop k link.queued, flatMap_append]
    rw [take_append, take_of_length_le received]
  rw [stream] at fed
  obtain ⟨middle, first, rest⟩ := feedAll_front fed
  have frames := @feed_frames network (link.queued.take k) []
  have begins := @feedAll_grows _ _ framing middle (((link.queued.drop k).flatMap (Message.frame network)).take
    (link.taken - ((link.queued.take k).flatMap (Message.frame network)).length))
  rw [rest] at begins
  have same' := (Prod.mk.inj (first.symm.trans frames)).1
  rw [same'] at begins
  rw [same, ← @contents network]
  exact begins.map contentOf

theorem completed_dispatchable (sound : link.Sound network) : ∀ frame ∈ completed link.vRecvMsg, Dispatchable network frame := by
  intro frame member
  obtain ⟨gone, waiting, part, fed, represents, -⟩ := sound.received
  rw [represents.completed] at member
  obtain ⟨message, -, rfl⟩ := mem_map.mp ((sound.expected fed).subset (mem_append_right gone member))
  exact message.dispatchable

theorem dispatches_next (sound : link.Sound network) {frame : CMessageHeader × List UInt8} {rest : List (CMessageHeader × List UInt8)}
    (first : completed link.vRecvMsg = frame :: rest) : ∃ vRecvMsg,
    processMessages network false link.vRecvMsg = (true, some (contentOf frame), vRecvMsg) ∧ completed vRecvMsg = rest := by
  have good := sound.completed_dispatchable frame (by rw [first]; exact mem_cons_self)
  obtain ⟨gone, waiting, part, -, represents, -⟩ := sound.received
  have waiting' := represents.completed
  rw [first] at waiting'
  obtain ⟨front, tail, split', finished, end'⟩ := represents.split
  dsimp only at waiting' finished end'
  subst waiting'
  obtain ⟨msg, front', finished', later, rfl⟩ := forall₂_cons_right_iff.mp finished
  refine ⟨front' ++ tail, ?_, ?_⟩
  · rw [processMessages, if_neg Bool.false_ne_true, split', List.cons_append, processLoop_dispatches finished' good]
    rfl
  · have left : Represents (front' ++ tail) ⟨rest, part⟩ := ⟨front', tail, rfl, later, end'⟩
    exact left.completed

end Link.Sound

/-- Over every order of queueing, partial writes, reads and handler turns: nothing fails, the sender's counters
are exact, what arrives is what was queued, in order and once, as soon as its bytes are received, and the handler
dispatches it. However a stream of any bytes is cut, the same messages are completed and the same byte is refused. -/
theorem messages_arrive_once (network : Network) (events : List Event) : (∃ link, Link.run network {} events = some link ∧
      link.sender.nSendSize = (link.sender.vSendMsg.map length).sum ∧
      (∀ data ∈ link.sender.vSendMsg.head?, link.sender.nSendOffset < data.length) ∧
      (∀ frame ∈ completed link.vRecvMsg, Dispatchable network frame) ∧
      link.arrived <+: (events.filterMap Event.queued).map Message.content ∧
      (∀ k, (((events.filterMap Event.queued).take k).flatMap (Message.frame network)).length ≤ link.taken →
        ((events.filterMap Event.queued).take k).map Message.content <+: link.arrived) ∧
      (link.sender.vSendMsg = [] → link.taken = link.sender.sent.length →
        link.arrived = (events.filterMap Event.queued).map Message.content) ∧
      ∀ frame rest, completed link.vRecvMsg = frame :: rest → ∃ vRecvMsg,
        processMessages network false link.vRecvMsg = (true, some (contentOf frame), vRecvMsg) ∧ completed vRecvMsg = rest) ∧
    ∀ cuts cuts' : List (List UInt8), cuts.flatten = cuts'.flatten →
      completed (receiveCuts network cuts []).1 = completed (receiveCuts network cuts' []).1 ∧
        (receiveCuts network cuts []).2 = (receiveCuts network cuts' []).2 := by
  constructor
  · obtain ⟨link, finished, sound⟩ := (@Link.sound_start network).run events
    have queued : link.queued = events.filterMap Event.queued := Link.run_queued finished
    rw [← queued]
    refine ⟨link, finished, sound.sender.nSendSize, sound.sender.first, sound.completed_dispatchable, sound.arrived_front,
      sound.arrived_of_taken, fun empty taken => ?_, fun frame rest first => sound.dispatches_next first⟩
    have unsent : link.sender.unsent = [] := by rw [unsent, empty, flatten_nil, drop_nil]
    have all := sound.arrived_of_taken link.queued.length (by
      have stream := sound.stream
      rw [unsent, append_nil] at stream
      rw [take_length, ← stream, taken])
    rw [take_length] at all
    exact sound.arrived_front.eq_of_length_le all.length_le
  · intro cuts cuts' same
    obtain ⟨refusals, frames⟩ := receiveCuts_flatten network cuts
    obtain ⟨refusals', frames'⟩ := receiveCuts_flatten network cuts'
    rw [frames, frames', refusals, refusals', same]
    exact ⟨rfl, rfl⟩

def sampleNetwork : Network where
  messageStart := [0xfb, 0xc0, 0xb6, 0xdb]
  start_size := rfl
  hash bytes := (bytes ++ replicate 32 0).take 32
  hash_size bytes := by simp

def ping : Message := ⟨[0x70, 0x69, 0x6e, 0x67], [1, 2, 3, 4, 5, 6, 7, 8], by decide +kernel, by decide, by decide +kernel⟩

def mempool : Message := ⟨[0x6d, 0x65, 0x6d], [], by decide +kernel, by decide, by decide +kernel⟩

/-- The first write stops within a message, and the reads cut both headers. -/
def sampleEvents : List Event :=
  [.push ping [20], .push mempool [], .receive 7, .send [99, 99], .receive 33, .process true, .receive 99]

theorem messages_arrive_once_two : ∃ link, Link.run sampleNetwork {} sampleEvents = some link ∧
    link.arrived = [ping.content, mempool.content] := by
  obtain ⟨link, run, -, -, -, -, -, all, -⟩ := (messages_arrive_once sampleNetwork sampleEvents).1
  have ended : (Link.run sampleNetwork {} sampleEvents).map (fun link => (link.sender.vSendMsg, link.taken == link.sender.sent.length)) =
      some ([], true) := by decide +kernel
  rw [run] at ended
  obtain ⟨sent, taken⟩ := Prod.mk.inj (some.inj ended)
  exact ⟨link, run, all sent (beq_iff_eq.mp taken)⟩

end Longcoin.Net
