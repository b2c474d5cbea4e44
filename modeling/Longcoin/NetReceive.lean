import Longcoin.Net

/-! The reassembly of messages refines feeding the stream byte by byte, so it does not depend on how the
stream was cut. -/

namespace Longcoin.Net
open Library Framing CMessageHeader List Bool

/-- The frames of the wire: a header is refused when its size is too large. -/
def framing : Framing UInt8 CMessageHeader where
  headerSize := HEADER_SIZE
  positive := by decide
  header bytes :=
    let hdr := CMessageHeader.unserialize bytes
    if MAX_SIZE < hdr.nMessageSize ∨ MAX_PROTOCOL_MESSAGE_LENGTH < hdr.nMessageSize then none else some hdr
  bodySize := CMessageHeader.nMessageSize

/-- The headers and payloads of the completed messages. -/
def completed (vRecvMsg : List CNetMessage) : List (CMessageHeader × List UInt8) :=
  (vRecvMsg.filter CNetMessage.complete).map fun msg => (msg.hdr, msg.vRecv)

structure Finished (msg : CNetMessage) (frame : CMessageHeader × List UInt8) : Prop where
  in_data : msg.in_data = true
  hdr : msg.hdr = frame.1
  vRecv : msg.vRecv = frame.2
  position : msg.nDataPos = frame.1.nMessageSize

structure TakingHeader (msg : CNetMessage) (taken : List UInt8) : Prop where
  in_data : msg.in_data = false
  position : msg.nHdrPos = taken.length
  short : taken.length < HEADER_SIZE
  size : msg.hdrbuf.length = HEADER_SIZE
  hdrbuf : msg.hdrbuf.take taken.length = taken
  vRecv : msg.vRecv = []
  nDataPos : msg.nDataPos = 0

structure TakingBody (msg : CNetMessage) (head : CMessageHeader) (taken : List UInt8) : Prop where
  in_data : msg.in_data = true
  hdr : msg.hdr = head
  position : msg.nDataPos = taken.length
  short : taken.length < head.nMessageSize
  room : taken.length ≤ msg.vRecv.length
  bounded : msg.vRecv.length ≤ head.nMessageSize
  allowed : head.nMessageSize ≤ MAX_PROTOCOL_MESSAGE_LENGTH
  vRecv : msg.vRecv.take taken.length = taken

def Taking (msg : CNetMessage) : Part UInt8 CMessageHeader → Prop
  | .header taken => TakingHeader msg taken
  | .body head taken => TakingBody msg head taken

structure Represents (vRecvMsg : List CNetMessage) (state : Feed UInt8 CMessageHeader) : Prop where
  split : ∃ front tail, vRecvMsg = front ++ tail ∧ List.Forall₂ Finished front state.done ∧
    (tail = [] ∧ state.part = .header [] ∨ ∃ msg, tail = [msg] ∧ Taking msg state.part)

variable {msg : CNetMessage}

theorem Finished.complete {frame : CMessageHeader × List UInt8} (finished : Finished msg frame) : msg.complete = true := by
  rw [CNetMessage.complete, finished.in_data, finished.hdr, finished.position, Bool.true_and, decide_eq_true rfl]

theorem Taking.incomplete {part : Part UInt8 CMessageHeader} (taking : Taking msg part) : msg.complete = false := by
  cases part with
  | header taken => rw [CNetMessage.complete, TakingHeader.in_data taking, Bool.false_and]
  | body head taken =>
    have body : TakingBody msg head taken := taking
    have short := body.short
    rw [CNetMessage.complete, body.in_data, body.hdr, body.position, Bool.true_and, decide_eq_false (by omega)]

theorem completed_append (front back : List CNetMessage) : completed (front ++ back) = completed front ++ completed back := by
  rw [completed, filter_append, map_append]
  rfl

theorem completed_finished {front : List CNetMessage} {frames : List (CMessageHeader × List UInt8)}
    (finished : Forall₂ Finished front frames) : completed front = frames := by
  induction finished with
  | nil => rfl
  | cons first _ ih =>
    rw [completed, filter_cons, first.complete, if_pos rfl, map_cons, first.hdr, first.vRecv]
    exact congrArg _ ih

theorem all_complete {front : List CNetMessage} {frames : List (CMessageHeader × List UInt8)}
    (finished : Forall₂ Finished front frames) : ∀ msg ∈ front, msg.complete = true := by
  induction finished with
  | nil => exact nofun
  | cons first _ ih =>
    intro msg member
    rcases mem_cons.mp member with rfl | later
    · exact first.complete
    · exact ih msg later

theorem completed_incomplete (incomplete : msg.complete = false) : completed [msg] = [] := by
  rw [completed, List.filter_cons, incomplete, if_neg Bool.false_ne_true]
  rfl

variable {vRecvMsg : List CNetMessage} {state : Feed UInt8 CMessageHeader}

theorem Represents.completed (represents : Represents vRecvMsg state) : Net.completed vRecvMsg = state.done := by
  obtain ⟨front, tail, rfl, finished, rest⟩ := represents.split
  rw [completed_append, completed_finished finished]
  rcases rest with ⟨rfl, -⟩ | ⟨msg, rfl, taking⟩
  · exact append_nil _
  · rw [completed_incomplete taking.incomplete, append_nil]

theorem represents_nil : Represents [] {} := ⟨[], [], rfl, .nil, .inl ⟨rfl, rfl⟩⟩

theorem takingHeader_new (network : Network) : TakingHeader { hdr := { pchMessageStart := network.messageStart } } [] :=
  ⟨rfl, rfl, by decide, rfl, rfl, rfl, rfl⟩

theorem back_represents (network : Network) (represents : Represents vRecvMsg state) :
    Forall₂ Finished (back network vRecvMsg).1 state.done ∧ Taking (back network vRecvMsg).2 state.part := by
  obtain ⟨front, tail, rfl, finished, rest⟩ := represents.split
  rcases rest with ⟨rfl, part⟩ | ⟨msg, rfl, taking⟩
  · rw [append_nil, part]
    have fresh : back network front = (front, { hdr := { pchMessageStart := network.messageStart } }) := by
      rw [back]
      cases last : front.getLast? with
      | none => rfl
      | some msg =>
        dsimp only
        rw [if_pos (all_complete finished msg (mem_of_getLast? last))]
    rw [fresh]
    exact ⟨finished, takingHeader_new network⟩
  · have last : back network (front ++ [msg]) = (front, msg) := by
      rw [back, getLast?_concat]
      dsimp only
      rw [if_neg (by rw [taking.incomplete]; exact false_ne_true), dropLast_concat]
    rw [last]
    exact ⟨finished, taking⟩

theorem memcpy_take {buffer bytes : List UInt8} {position : Nat} (fits : position ≤ buffer.length) :
    (memcpy buffer position bytes).take (position + bytes.length) = buffer.take position ++ bytes := by
  have front : (buffer.take position).length = position := by rw [length_take, Nat.min_eq_left fits]
  rw [memcpy, ← append_assoc, take_left' (by rw [length_append, front])]

theorem length_memcpy {buffer bytes : List UInt8} {position : Nat} (fits : position + bytes.length ≤ buffer.length) :
    (memcpy buffer position bytes).length = buffer.length := by
  rw [memcpy, length_append, length_append, length_take, length_drop]
  omega

variable {pch : List UInt8}

theorem readHeader_cases {taken : List UInt8} (taking : TakingHeader msg taken) (some' : pch ≠ []) :
    ∃ cut rest msg', pch = cut ++ rest ∧ cut ≠ [] ∧ msg'.nHdrPos = msg.nHdrPos + cut.length ∧
      ((taken ++ cut).length < HEADER_SIZE ∧ msg.readHeader pch = (some cut.length, msg') ∧ TakingHeader msg' (taken ++ cut) ∨
        (taken ++ cut).length = HEADER_SIZE ∧ msg'.hdr = .unserialize (taken ++ cut) ∧ msg'.vRecv = [] ∧ msg'.nDataPos = 0 ∧
          (MAX_SIZE < msg'.hdr.nMessageSize ∧ msg'.in_data = false ∧ msg.readHeader pch = (none, msg') ∨
            msg'.hdr.nMessageSize ≤ MAX_SIZE ∧ msg'.in_data = true ∧ msg.readHeader pch = (some cut.length, msg'))) := by
  have short : taken.length < 24 := taking.short
  have filled : 0 < pch.length := length_pos_iff.mpr some'
  have position := taking.position
  have size : msg.hdrbuf.length = 24 := taking.size
  obtain ⟨nCopy, copies⟩ : ∃ nCopy, nCopy = min (24 - msg.nHdrPos) pch.length := ⟨_, rfl⟩
  have count : (pch.take nCopy).length = nCopy := by
    rw [length_take]
    omega
  have total : (taken ++ pch.take nCopy).length = msg.nHdrPos + nCopy := by rw [length_append, count, position]
  have copied : (memcpy msg.hdrbuf msg.nHdrPos (pch.take nCopy)).take (taken ++ pch.take nCopy).length = taken ++ pch.take nCopy := by
    have front := @memcpy_take msg.hdrbuf (pch.take nCopy) msg.nHdrPos (by omega)
    rw [count, position, taking.hdrbuf, ← position, ← total] at front
    exact front
  have length' : (memcpy msg.hdrbuf msg.nHdrPos (pch.take nCopy)).length = 24 := by
    rw [length_memcpy (by omega), size]
  have cutSome : pch.take nCopy ≠ [] := by
    intro none'
    rw [none', length_nil] at count
    omega
  have read : msg.readHeader pch =
      if msg.nHdrPos + nCopy < 24 then
        (some nCopy, { msg with hdrbuf := memcpy msg.hdrbuf msg.nHdrPos (pch.take nCopy), nHdrPos := msg.nHdrPos + nCopy })
      else if MAX_SIZE < (unserialize (memcpy msg.hdrbuf msg.nHdrPos (pch.take nCopy))).nMessageSize then
        (none, { msg with
          hdrbuf := memcpy msg.hdrbuf msg.nHdrPos (pch.take nCopy), nHdrPos := msg.nHdrPos + nCopy
          hdr := .unserialize (memcpy msg.hdrbuf msg.nHdrPos (pch.take nCopy)) })
      else
        (some nCopy, { msg with
          hdrbuf := memcpy msg.hdrbuf msg.nHdrPos (pch.take nCopy), nHdrPos := msg.nHdrPos + nCopy
          hdr := .unserialize (memcpy msg.hdrbuf msg.nHdrPos (pch.take nCopy)), in_data := true }) := by
    rw [CNetMessage.readHeader, ← copies]
  by_cases more : msg.nHdrPos + nCopy < 24
  · rw [if_pos more] at read
    refine ⟨pch.take nCopy, pch.drop nCopy, _, (take_append_drop nCopy pch).symm, cutSome, ?_,
      .inl ⟨by rw [total]; exact more, by rw [count]; exact read, ?_⟩⟩
    · rw [count]
    · exact ⟨taking.in_data, total.symm, by rw [total]; exact more, length', copied, taking.vRecv, taking.nDataPos⟩
  · rw [if_neg more] at read
    have whole : (taken ++ pch.take nCopy).length = 24 := by omega
    have same : memcpy msg.hdrbuf msg.nHdrPos (pch.take nCopy) = taken ++ pch.take nCopy := by
      rw [whole, ← length', take_length] at copied
      exact copied
    rw [same] at read
    by_cases large : MAX_SIZE < (unserialize (taken ++ pch.take nCopy)).nMessageSize
    · rw [if_pos large] at read
      refine ⟨pch.take nCopy, pch.drop nCopy, _, (take_append_drop nCopy pch).symm, cutSome, ?_,
        .inr ⟨whole, ?_, ?_, ?_, .inl ⟨?_, ?_, read⟩⟩⟩
      · rw [count]
      · rfl
      · exact taking.vRecv
      · exact taking.nDataPos
      · exact large
      · exact taking.in_data
    · rw [if_neg large] at read
      rw [← count] at read
      refine ⟨pch.take nCopy, pch.drop nCopy, _, (take_append_drop nCopy pch).symm, cutSome, ?_,
        .inr ⟨whole, ?_, ?_, ?_, .inr ⟨?_, ?_, read⟩⟩⟩
      · rfl
      · rw [count]
      · exact taking.vRecv
      · exact taking.nDataPos
      · rw [count]
        exact Nat.le_of_not_lt large
      · rfl

theorem length_resize (buffer : List UInt8) (size : Nat) : (CNetMessage.resize buffer size).length = size := by
  rw [CNetMessage.resize, length_append, length_take, length_replicate]
  omega

theorem take_resize {buffer : List UInt8} {size position : Nat} (within : position ≤ buffer.length) (kept : position ≤ size) :
    (CNetMessage.resize buffer size).take position = buffer.take position := by
  rw [CNetMessage.resize, take_append_of_le_length (by rw [length_take]; omega), take_take, Nat.min_eq_left kept]

theorem readData_cases {head : CMessageHeader} {taken : List UInt8} (taking : TakingBody msg head taken) (some' : pch ≠ []) :
    ∃ cut rest msg', pch = cut ++ rest ∧ cut ≠ [] ∧ msg.readData pch = (cut.length, msg') ∧
      msg'.in_data = true ∧ msg'.hdr = head ∧
      ((taken ++ cut).length < head.nMessageSize ∧ TakingBody msg' head (taken ++ cut) ∨
        (taken ++ cut).length = head.nMessageSize ∧ Finished msg' (head, taken ++ cut)) := by
  have short := taking.short
  have filled : 0 < pch.length := length_pos_iff.mpr some'
  have position := taking.position
  have room := taking.room
  have bounded := taking.bounded
  obtain ⟨nCopy, copies⟩ : ∃ nCopy, nCopy = min (msg.hdr.nMessageSize - msg.nDataPos) pch.length := ⟨_, rfl⟩
  rw [taking.hdr] at copies
  have count : (pch.take nCopy).length = nCopy := by
    rw [length_take]
    omega
  have total : (taken ++ pch.take nCopy).length = msg.nDataPos + nCopy := by rw [length_append, count, position]
  have cutSome : pch.take nCopy ≠ [] := by
    intro none'
    rw [none', length_nil] at count
    omega
  obtain ⟨vRecv, grown⟩ : ∃ vRecv, vRecv =
      if msg.vRecv.length < msg.nDataPos + nCopy then
        CNetMessage.resize msg.vRecv (min head.nMessageSize (msg.nDataPos + nCopy + 256 * 1024))
      else msg.vRecv := ⟨_, rfl⟩
  have fits : msg.nDataPos + nCopy ≤ vRecv.length ∧ vRecv.length ≤ head.nMessageSize ∧ vRecv.take taken.length = taken := by
    rw [grown]
    split
    · rw [length_resize, take_resize room (by omega), taking.vRecv]
      exact ⟨by omega, by omega, rfl⟩
    · exact ⟨by omega, bounded, taking.vRecv⟩
  have read : msg.readData pch =
      (nCopy, { msg with vRecv := memcpy vRecv msg.nDataPos (pch.take nCopy), nDataPos := msg.nDataPos + nCopy }) := by
    rw [CNetMessage.readData, taking.hdr, ← copies, ← grown]
  have length' : (memcpy vRecv msg.nDataPos (pch.take nCopy)).length = vRecv.length := length_memcpy (by omega)
  have copied : (memcpy vRecv msg.nDataPos (pch.take nCopy)).take (taken ++ pch.take nCopy).length = taken ++ pch.take nCopy := by
    have front := @memcpy_take vRecv (pch.take nCopy) msg.nDataPos (by omega)
    rw [count, position, fits.2.2, ← position, ← total] at front
    exact front
  have read' : msg.readData pch = ((pch.take nCopy).length,
      { msg with vRecv := memcpy vRecv msg.nDataPos (pch.take nCopy), nDataPos := msg.nDataPos + nCopy }) := by
    rw [read, count]
  refine ⟨pch.take nCopy, pch.drop nCopy, _, (take_append_drop nCopy pch).symm, cutSome, read', ?_, ?_, ?_⟩
  · exact taking.in_data
  · exact taking.hdr
  · by_cases more : (taken ++ pch.take nCopy).length < head.nMessageSize
    · refine .inl ⟨more, taking.in_data, taking.hdr, total.symm, more, ?_, ?_, taking.allowed, copied⟩
      · rw [length']
        omega
      · rw [length']
        omega
    · have whole : (taken ++ pch.take nCopy).length = head.nMessageSize := by omega
      refine .inr ⟨whole, taking.in_data, taking.hdr, ?_, ?_⟩
      · rw [take_of_length_le (by rw [length']; omega)] at copied
        exact copied
      · exact total.symm.trans whole

theorem receiveLoop_turn (network : Network) (turns : Nat) (represents : Represents vRecvMsg state) (some' : pch ≠ []) :
    ∃ cut rest, pch = cut ++ rest ∧ cut ≠ [] ∧ ((∃ vRecvMsg' state', receiveLoop network (turns + 1) pch vRecvMsg =
            ((receiveLoop network turns rest vRecvMsg').1, (receiveLoop network turns rest vRecvMsg').2.map (cut.length + ·)) ∧
          framing.feedAll state cut = (state', none) ∧ Represents vRecvMsg' state') ∨
        ∃ vRecvMsg', receiveLoop network (turns + 1) pch vRecvMsg = (vRecvMsg', some cut.length) ∧
          completed vRecvMsg' = state.done ∧ (framing.feedAll state cut).1.done = state.done ∧
          (framing.feedAll state cut).2 = some cut.length) := by
  obtain ⟨finished, taking⟩ := back_represents network represents
  obtain ⟨done, part⟩ := state
  have unread : pch.isEmpty = false := by
    cases pch with
    | nil => exact absurd rfl some'
    | cons => rfl
  rw [receiveLoop, unread, if_neg Bool.false_ne_true]
  generalize back network vRecvMsg = found at finished taking ⊢
  obtain ⟨front, msg⟩ := found
  dsimp only at finished taking ⊢
  cases part with
  | header taken =>
    have header : TakingHeader msg taken := taking
    obtain ⟨cut, rest, msg', rfl, cutSome, position, cases'⟩ := readHeader_cases header some'
    refine ⟨cut, rest, rfl, cutSome, ?_⟩
    rw [header.in_data, Bool.not_false, if_pos rfl]
    rcases cases' with ⟨short, read, more⟩ | ⟨whole, hdr, vRecv, nDataPos, ⟨large, in_data, read⟩ | ⟨small, in_data, read⟩⟩
    · left
      rw [read]
      dsimp only
      rw [more.in_data, Bool.false_and, if_neg Bool.false_ne_true, List.drop_left]
      exact ⟨_, _, rfl, feedAll_within_header done taken cut short, front, [msg'], rfl, finished, .inr ⟨msg', rfl, more⟩⟩
    · right
      have refused : framing.header (taken ++ cut) = none := by
        change (if _ then none else some (unserialize (taken ++ cut))) = none
        rw [← hdr, if_pos (.inl large)]
      have incomplete : msg'.complete = false := by rw [CNetMessage.complete, in_data, Bool.false_and]
      rw [read]
      dsimp only
      rw [position, Nat.add_sub_cancel_left]
      refine ⟨_, rfl, ?_, feedAll_refused cutSome whole refused⟩
      rw [completed_append, completed_finished finished, completed_incomplete incomplete, List.append_nil]
    · rw [read]
      dsimp only
      rw [in_data, Bool.true_and]
      by_cases large : MAX_PROTOCOL_MESSAGE_LENGTH < msg'.hdr.nMessageSize
      · right
        have refused : framing.header (taken ++ cut) = none := by
          change (if _ then none else some (unserialize (taken ++ cut))) = none
          rw [← hdr, if_pos (.inr large)]
        have incomplete : msg'.complete = false := by
          rw [CNetMessage.complete, nDataPos, decide_eq_false (by omega), Bool.and_false]
        rw [decide_eq_true large, if_pos rfl]
        refine ⟨_, rfl, ?_, feedAll_refused cutSome whole refused⟩
        rw [completed_append, completed_finished finished, completed_incomplete incomplete, List.append_nil]
      · left
        have read' : framing.header (taken ++ cut) = some msg'.hdr := by
          change (if _ then none else some (unserialize (taken ++ cut))) = _
          rw [← hdr, if_neg (by omega)]
        rw [decide_eq_false large, if_neg Bool.false_ne_true, List.drop_left]
        refine ⟨_, _, rfl, feedAll_header cutSome whole read', ?_⟩
        rw [headed]
        by_cases empty : msg'.hdr.nMessageSize = 0
        · rw [if_pos (show framing.bodySize msg'.hdr = 0 from empty)]
          have last : Finished msg' (msg'.hdr, []) := ⟨in_data, rfl, vRecv, nDataPos.trans empty.symm⟩
          exact ⟨front ++ [msg'], [], (List.append_nil _).symm, List.rel_append finished (.cons last .nil), .inl ⟨rfl, rfl⟩⟩
        · rw [if_neg (show framing.bodySize msg'.hdr ≠ 0 from empty)]
          have more : TakingBody msg' msg'.hdr [] := ⟨in_data, rfl, nDataPos, Nat.pos_of_ne_zero empty, Nat.zero_le _, by
            rw [vRecv]
            exact Nat.zero_le _, Nat.le_of_not_lt large, rfl⟩
          exact ⟨front, [msg'], rfl, finished, .inr ⟨msg', rfl, more⟩⟩
  | body head taken =>
    have body : TakingBody msg head taken := taking
    obtain ⟨cut, rest, msg', rfl, cutSome, read, in_data, hdr, cases'⟩ := readData_cases body some'
    refine ⟨cut, rest, rfl, cutSome, .inl ?_⟩
    have allowed := body.allowed
    rw [body.in_data, Bool.not_true, if_neg Bool.false_ne_true, read]
    dsimp only
    rw [in_data, hdr, Bool.true_and, decide_eq_false (by omega), if_neg Bool.false_ne_true, List.drop_left]
    rcases cases' with ⟨short, more⟩ | ⟨whole, last⟩
    · exact ⟨_, _, rfl, feedAll_within_body done head taken cut short, front, [msg'], rfl, finished, .inr ⟨msg', rfl, more⟩⟩
    · exact ⟨_, _, rfl, feedAll_body cutSome whole, front ++ [msg'], [], (List.append_nil _).symm,
        List.rel_append finished (.cons last .nil), .inl ⟨rfl, rfl⟩⟩

theorem receiveLoop_feeds (network : Network) {turns : Nat} (enough : pch.length ≤ turns)
    (represents : Represents vRecvMsg state) : (receiveLoop network turns pch vRecvMsg).2 = (framing.feedAll state pch).2 ∧
      completed (receiveLoop network turns pch vRecvMsg).1 = (framing.feedAll state pch).1.done ∧
      ((framing.feedAll state pch).2 = none →
        Represents (receiveLoop network turns pch vRecvMsg).1 (framing.feedAll state pch).1) := by
  induction turns generalizing pch vRecvMsg state with
  | zero =>
    have none' : pch = [] := length_eq_zero_iff.mp (Nat.le_zero.mp enough)
    subst none'
    exact ⟨rfl, represents.completed, fun _ => represents⟩
  | succ turns ih =>
    by_cases some' : pch = []
    · subst some'
      exact ⟨rfl, represents.completed, fun _ => represents⟩
    · obtain ⟨cut, rest, rfl, cutSome, goes | ⟨vRecvMsg', stops, same, done, refused⟩⟩ := receiveLoop_turn network turns represents some'
      · obtain ⟨vRecvMsg', state', turned, fed, represents'⟩ := goes
        have shorter : rest.length ≤ turns := by
          have long := length_pos_iff.mpr cutSome
          rw [length_append] at enough
          omega
        obtain ⟨refusals, frames, more⟩ := ih shorter represents'
        rw [turned, feedAll_append, fed]
        dsimp only
        refine ⟨by rw [refusals], frames, fun none' => more ?_⟩
        exact Option.map_eq_none_iff.mp none'
      · rw [stops, feedAll_append]
        rcases feeds : framing.feedAll state cut with ⟨next, n⟩
        rw [feeds] at done refused
        dsimp only at done refused
        subst refused
        exact ⟨rfl, same.trans done.symm, nofun⟩

theorem receiveCuts_feeds (network : Network) (cuts : List (List UInt8)) (represents : Represents vRecvMsg state) :
    (receiveCuts network cuts vRecvMsg).2 = (framing.feedCuts state cuts).2 ∧
      completed (receiveCuts network cuts vRecvMsg).1 = (framing.feedCuts state cuts).1.done := by
  induction cuts generalizing vRecvMsg state with
  | nil => exact ⟨rfl, represents.completed⟩
  | cons cut rest ih =>
    obtain ⟨refusals, frames, more⟩ := receiveLoop_feeds network (Nat.le_refl cut.length) represents
    rw [receiveCuts, feedCuts, receiveMsgBytes]
    rcases received : receiveLoop network cut.length cut vRecvMsg with ⟨vRecvMsg', n⟩
    rcases fed : framing.feedAll state cut with ⟨next, n'⟩
    rw [received, fed] at refusals frames more
    dsimp only at refusals frames more
    subst refusals
    cases n with
    | some n => exact ⟨rfl, frames⟩
    | none =>
      obtain ⟨refusals, frames⟩ := ih (more rfl)
      dsimp only
      exact ⟨by rw [refusals], frames⟩

theorem receiveCuts_flatten (network : Network) (cuts : List (List UInt8)) :
    (receiveCuts network cuts []).2 = (framing.feedAll {} cuts.flatten).2 ∧
      completed (receiveCuts network cuts []).1 = (framing.feedAll {} cuts.flatten).1.done := by
  rw [← feedCuts_flatten]
  exact receiveCuts_feeds network cuts represents_nil

end Longcoin.Net
