import Segvault.Autodafe.Debugger

namespace Segvault.Autodafe

open Bytes Segments

/-! What one read takes, and that a message is read field by field. -/

theorem inetRead_eq_some {count : Nat} {dbg after : Debugger} {bytes : List UInt8}
    (answered : inetRead count dbg = some (bytes, after)) :
    bytes ≠ [] ∧ bytes = (read count dbg.input).1 ∧
      after = { dbg with input := (read count dbg.input).2 } := by
  unfold inetRead at answered
  split at answered
  · cases answered
  · rename_i nonempty
    cases answered
    exact ⟨nonempty, rfl, rfl⟩

theorem inetReadInt_eq_some {dbg after : Debugger} {value : Nat}
    (answered : inetReadInt dbg = some (value, after)) :
    value = ofBigEndian (zeroed 4 (read 4 dbg.input).1) ∧
      after = { dbg with input := (read 4 dbg.input).2 } := by
  obtain ⟨⟨bytes, middle⟩, first, same⟩ := Option.bind_eq_some_iff.mp answered
  obtain ⟨-, rfl, rfl⟩ := inetRead_eq_some first
  cases same
  exact ⟨rfl, rfl⟩

/-- The opcode, and the fields after it. -/
def FuzzerMessage.opcode : FuzzerMessage → UInt8
  | .version => inetVersionAMsg
  | .string _ _ => inetStringAMsg
  | .start => inetStartAMsg

theorem FuzzerMessage.fields_eq (message : FuzzerMessage) :
    message.fields = [message.opcode] :: message.fields.tail := by
  cases message <;> rfl

theorem length_zeroed {count : Nat} {bytes : List UInt8} (few : bytes.length ≤ count) :
    (zeroed count bytes).length = count := by
  rw [zeroed, List.length_append, List.length_replicate, Nat.add_sub_cancel' few]

/-- A message that has been decoded took the reads of its own fields. -/
theorem reads_of_inetDecodeMsg {opcode : UInt8} {dbg after : Debugger} {message : FuzzerMessage}
    (decoded : inetDecodeMsg opcode dbg = some (message, after)) :
    opcode = message.opcode ∧
      (readFields (message.fields.tail.map List.length) dbg.input).2 = after.input ∧
      ∀ id content, message = .string id content → content ≠ [] := by
  unfold inetDecodeMsg at decoded
  split at decoded
  · rename_i isVersion
    obtain ⟨⟨major, first⟩, readMajor, decoded⟩ := Option.bind_eq_some_iff.mp decoded
    obtain ⟨⟨minor, second⟩, readMinor, decoded⟩ := Option.bind_eq_some_iff.mp decoded
    obtain ⟨-, rfl⟩ := inetReadInt_eq_some readMajor
    obtain ⟨-, rfl⟩ := inetReadInt_eq_some readMinor
    dsimp only at decoded
    split at decoded
    · cases decoded
    · cases decoded
      exact ⟨isVersion, rfl, nofun⟩
  split at decoded
  · rename_i isStart
    cases decoded
    exact ⟨isStart, rfl, nofun⟩
  split at decoded
  · rename_i isString
    obtain ⟨⟨id, first⟩, readId, decoded⟩ := Option.bind_eq_some_iff.mp decoded
    obtain ⟨⟨size, second⟩, readSize, decoded⟩ := Option.bind_eq_some_iff.mp decoded
    obtain ⟨⟨bytes, third⟩, readContent, decoded⟩ := Option.bind_eq_some_iff.mp decoded
    obtain ⟨-, rfl⟩ := inetReadInt_eq_some readId
    obtain ⟨-, rfl⟩ := inetReadInt_eq_some readSize
    obtain ⟨nonempty, rfl, rfl⟩ := inetRead_eq_some readContent
    cases decoded
    refine ⟨isString, ?_, ?_⟩
    · simp only [FuzzerMessage.fields, List.tail_cons, List.map_cons, List.map_nil,
        length_bigEndian32, length_zeroed (length_read_le _ _), readFields]
      unfold Debugger.sendAck Debugger.monitor
      split <;> rfl
    · rintro - content ⟨⟩ empty
      exact nonempty (List.append_eq_nil_iff.mp empty).1
  · cases decoded

theorem inetFetchMsg_eq_some {dbg after : Debugger} {opcode : UInt8}
    (fetched : inetFetchMsg dbg = some (opcode, after)) :
    after = { dbg with input := (read 1 dbg.input).2 } := by
  obtain ⟨⟨bytes, middle⟩, first, same⟩ := Option.bind_eq_some_iff.mp fetched
  obtain ⟨-, rfl, rfl⟩ := inetRead_eq_some first
  cases same
  rfl

/-- No string of the message is empty. -/
def FuzzerMessage.Filled (message : FuzzerMessage) : Prop :=
  ∀ id content, message = .string id content → content ≠ []

theorem reads_of_message {dbg middle after : Debugger} {opcode : UInt8} {message : FuzzerMessage}
    (fetched : inetFetchMsg dbg = some (opcode, middle))
    (decoded : inetDecodeMsg opcode middle = some (message, after)) :
    (readFields (message.fields.map List.length) dbg.input).2 = after.input ∧ message.Filled := by
  have same := inetFetchMsg_eq_some fetched
  subst same
  obtain ⟨-, reads, filled⟩ := reads_of_inetDecodeMsg decoded
  rw [message.fields_eq]
  exact ⟨reads, filled⟩

theorem readFields_flatMap (message : FuzzerMessage) (messages : List FuzzerMessage)
    (pieces : List (List UInt8)) :
    readFields (((message :: messages).flatMap FuzzerMessage.fields).map List.length) pieces =
      ((readFields (message.fields.map List.length) pieces).1 ++
        (readFields ((messages.flatMap FuzzerMessage.fields).map List.length)
          (readFields (message.fields.map List.length) pieces).2).1,
        (readFields ((messages.flatMap FuzzerMessage.fields).map List.length)
          (readFields (message.fields.map List.length) pieces).2).2) := by
  rw [List.flatMap_cons, List.map_append, readFields_append]

theorem reads_of_inetMsgs {fuel : Nat} {dbg after : Debugger} {messages : List FuzzerMessage}
    (decoded : inetMsgs fuel dbg = some (messages, after)) :
    (readFields ((messages.flatMap FuzzerMessage.fields).map List.length) dbg.input).2 =
        after.input ∧
      ∀ message ∈ messages, message.Filled := by
  induction fuel generalizing dbg messages with
  | zero => cases decoded
  | succ fuel induction =>
      obtain ⟨⟨opcode, middle⟩, fetched, decoded⟩ := Option.bind_eq_some_iff.mp decoded
      obtain ⟨⟨message, later⟩, read, decoded⟩ := Option.bind_eq_some_iff.mp decoded
      obtain ⟨reads, filled⟩ := reads_of_message fetched read
      dsimp only at decoded
      split at decoded
      · cases decoded
        refine ⟨?_, fun other member => List.mem_singleton.mp member ▸ filled⟩
        rw [readFields_flatMap]
        exact reads
      · obtain ⟨⟨others, last⟩, rest, same⟩ := Option.bind_eq_some_iff.mp decoded
        cases same
        obtain ⟨readsRest, filledRest⟩ := induction rest
        refine ⟨?_, List.forall_mem_cons.mpr ⟨filled, filledRest⟩⟩
        rw [readFields_flatMap, reads]
        exact readsRest

theorem reads_of_inetConnection {dbg after : Debugger} {messages : List FuzzerMessage}
    (decoded : inetConnection dbg = some (messages, after)) :
    (readFields ((messages.flatMap FuzzerMessage.fields).map List.length) dbg.input).2 =
        after.input ∧
      ∀ message ∈ messages, message.Filled := by
  obtain ⟨⟨opcode, middle⟩, fetched, decoded⟩ := Option.bind_eq_some_iff.mp decoded
  dsimp only at decoded
  split at decoded
  · cases decoded
  · obtain ⟨⟨message, later⟩, read, decoded⟩ := Option.bind_eq_some_iff.mp decoded
    obtain ⟨⟨others, last⟩, rest, same⟩ := Option.bind_eq_some_iff.mp decoded
    cases same
    obtain ⟨reads, filled⟩ := reads_of_message fetched read
    obtain ⟨readsRest, filledRest⟩ := reads_of_inetMsgs rest
    refine ⟨?_, List.forall_mem_cons.mpr ⟨filled, filledRest⟩⟩
    rw [readFields_flatMap, reads]
    exact readsRest

/-! Full reads give the messages back. -/

theorem inetRead_of_full {count : Nat} {dbg : Debugger} {bytes : List UInt8}
    (nonempty : bytes ≠ []) (full : (read count dbg.input).1 = bytes) :
    inetRead count dbg = some (bytes, { dbg with input := (read count dbg.input).2 }) := by
  rw [inetRead, full, if_neg nonempty]

theorem zeroed_self (bytes : List UInt8) : zeroed bytes.length bytes = bytes := by
  simp [zeroed]

theorem inetReadInt_of_full {dbg : Debugger} {value : Nat} (small : value < 2 ^ 32)
    (full : (read 4 dbg.input).1 = bigEndian32 value) :
    inetReadInt dbg = some (value, { dbg with input := (read 4 dbg.input).2 }) := by
  have nonempty : bigEndian32 value ≠ [] := List.cons_ne_nil _ _
  rw [inetReadInt, inetRead_of_full nonempty full]
  have same := zeroed_self (bigEndian32 value)
  rw [length_bigEndian32] at same
  simp only [Option.bind_eq_bind, Option.bind_some, same, ofBigEndian_bigEndian32,
    Nat.mod_eq_of_lt small]
  rfl

/-- A string whose size is an unsigned int, and is not 0. -/
def FuzzerMessage.Sendable (message : FuzzerMessage) : Prop :=
  ∀ id content, message = .string id content → content ≠ [] ∧ content.length < 2 ^ 32

theorem inetDecodeMsg_of_full {dbg : Debugger} {message : FuzzerMessage}
    (sendable : message.Sendable)
    (full : (readFields (message.fields.tail.map List.length) dbg.input).1 = message.fields.tail) :
    ∃ after, inetDecodeMsg message.opcode dbg = some (message, after) ∧
      after.input = (readFields (message.fields.tail.map List.length) dbg.input).2 := by
  cases message with
  | version =>
      simp only [FuzzerMessage.fields, List.tail_cons, List.map_cons, List.map_nil,
        length_bigEndian32, readFields, List.cons.injEq, and_true] at full ⊢
      obtain ⟨major, minor⟩ := full
      have readMajor := inetReadInt_of_full (by decide) major
      have readMinor := @inetReadInt_of_full { dbg with input := (read 4 dbg.input).2 } minorVersion
        (by decide) minor
      refine ⟨Debugger.sendAck
        { dbg with input := (read 4 (read 4 dbg.input).2).2 }, ?_, rfl⟩
      simp only [FuzzerMessage.opcode, inetDecodeMsg, if_true, readMajor, readMinor,
        Option.bind_eq_bind, Option.bind_some, ne_eq, not_true_eq_false, or_self, if_false]
      rfl
  | start => exact ⟨dbg.sendAck, rfl, rfl⟩
  | string id content =>
      obtain ⟨nonempty, small⟩ := sendable id content rfl
      simp only [FuzzerMessage.fields, List.tail_cons, List.map_cons, List.map_nil,
        length_bigEndian32, readFields, List.cons.injEq, and_true] at full ⊢
      obtain ⟨readId, readSize, readContent⟩ := full
      have first := inetReadInt_of_full id.toNat_lt readId
      have second := @inetReadInt_of_full { dbg with input := (read 4 dbg.input).2 }
        content.length small readSize
      have third := @inetRead_of_full content.length
        { dbg with input := (read 4 (read 4 dbg.input).2).2 } content nonempty readContent
      have notVersion : inetStringAMsg ≠ inetVersionAMsg := by decide
      have notStart : inetStringAMsg ≠ inetStartAMsg := by decide
      have same : UInt32.ofNat id.toNat = id := UInt32.ofNat_toNat
      refine ⟨(Debugger.monitor { dbg with
        input := (read content.length (read 4 (read 4 dbg.input).2).2).2 } id content).sendAck,
        ?_, ?_⟩
      · simp only [FuzzerMessage.opcode, inetDecodeMsg, notVersion, notStart, if_false, if_true,
          first, second, third, zeroed_self, same, Option.bind_eq_bind, Option.bind_some]
        rfl
      · unfold Debugger.sendAck Debugger.monitor
        split <;> rfl

theorem inetFetchMsg_of_full {dbg : Debugger} {opcode : UInt8}
    (full : (read 1 dbg.input).1 = [opcode]) :
    inetFetchMsg dbg = some (opcode, { dbg with input := (read 1 dbg.input).2 }) := by
  rw [inetFetchMsg, inetRead_of_full (List.cons_ne_nil _ _) full]
  rfl

/-- One round: the opcode and the message. -/
theorem inetMsg_of_full {dbg : Debugger} {message : FuzzerMessage} (sendable : message.Sendable)
    (full : (readFields (message.fields.map List.length) dbg.input).1 = message.fields) :
    ∃ middle after, inetFetchMsg dbg = some (message.opcode, middle) ∧
      inetDecodeMsg message.opcode middle = some (message, after) ∧
      after.input = (readFields (message.fields.map List.length) dbg.input).2 := by
  rw [message.fields_eq] at full ⊢
  simp only [List.map_cons, List.length_singleton, readFields, List.cons.injEq] at full ⊢
  obtain ⟨opcode, rest⟩ := full
  obtain ⟨after, decoded, left⟩ :=
    @inetDecodeMsg_of_full { dbg with input := (read 1 dbg.input).2 } message sendable rest
  exact ⟨_, after, inetFetchMsg_of_full opcode, decoded, left⟩

theorem full_append {first second fields : List (List UInt8)} {pieces : List (List UInt8)}
    (filled : first ++ second = fields)
    (full : (readFields (fields.map List.length) pieces).1 = fields) :
    (readFields (first.map List.length) pieces).1 = first ∧
      (readFields (second.map List.length) (readFields (first.map List.length) pieces).2).1 =
        second := by
  subst filled
  rw [List.map_append, readFields_append] at full
  exact List.append_inj full (by rw [length_readFields, List.length_map])

/-- The fields of several messages. -/
def sentFields (messages : List FuzzerMessage) : List (List UInt8) :=
  messages.flatMap FuzzerMessage.fields

/-- Every message takes a byte at least. -/
theorem length_le_sentFields (messages : List FuzzerMessage) :
    messages.length ≤ (sentFields messages).flatten.length := by
  induction messages with
  | nil => exact Nat.le_refl 0
  | cons message messages induction =>
      rw [sentFields, List.flatMap_cons, message.fields_eq]
      rw [sentFields] at induction
      simp only [List.cons_append, List.flatten_cons, List.length_append, List.flatten_append,
        List.length_cons]
      omega

theorem length_stringMessages (strings : List (UInt32 × List UInt8)) :
    (stringMessages strings).length = strings.length + 1 := by
  induction strings with
  | nil => rfl
  | cons entry strings induction => rw [stringMessages, List.length_cons, induction]; rfl

/-- The rounds up to the start message. -/
theorem inetMsgs_of_full {strings : List (UInt32 × List UInt8)}
    (sendable : ∀ entry ∈ strings, entry.2 ≠ [] ∧ entry.2.length < 2 ^ 32) {fuel : Nat}
    (enough : strings.length < fuel) {dbg : Debugger}
    (full : (readFields ((sentFields (stringMessages strings)).map List.length) dbg.input).1 =
      sentFields (stringMessages strings)) :
    ∃ after, inetMsgs fuel dbg = some (stringMessages strings, after) ∧
      after.input =
        (readFields ((sentFields (stringMessages strings)).map List.length) dbg.input).2 := by
  induction strings generalizing fuel dbg with
  | nil =>
      obtain ⟨fuel, rfl⟩ := Nat.exists_eq_add_one_of_ne_zero (Nat.ne_zero_of_lt enough)
      have start : FuzzerMessage.Sendable .start := nofun
      obtain ⟨middle, after, fetched, decoded, left⟩ := inetMsg_of_full start full
      refine ⟨after, ?_, left⟩
      rw [inetMsgs, fetched, Option.bind_eq_bind, Option.bind_some]
      dsimp only
      rw [decoded]
      rfl
  | cons entry strings induction =>
      obtain ⟨fuel, rfl⟩ := Nat.exists_eq_add_one_of_ne_zero (Nat.ne_zero_of_lt enough)
      obtain ⟨id, content⟩ := entry
      obtain ⟨fits, sendable⟩ := List.forall_mem_cons.mp sendable
      obtain ⟨fullFirst, fullRest⟩ := full_append (List.flatMap_cons ..).symm full
      have sends : FuzzerMessage.Sendable (.string id content) := by
        intro otherId otherContent same
        cases same
        exact fits
      obtain ⟨middle, after, fetched, decoded, left⟩ := inetMsg_of_full sends fullFirst
      rw [← left] at fullRest
      obtain ⟨last, rest, leftRest⟩ := induction sendable (Nat.lt_of_succ_lt_succ enough) fullRest
      refine ⟨last, ?_, ?_⟩
      · have notStart : (FuzzerMessage.string id content).opcode ≠ inetStartAMsg := by
          change inetStringAMsg ≠ inetStartAMsg
          decide
        rw [inetMsgs, fetched, Option.bind_eq_bind, Option.bind_some]
        dsimp only
        rw [decoded, Option.bind_eq_bind, Option.bind_some]
        dsimp only
        rw [if_neg notStart, rest]
        rfl
      · rw [leftRest, left, stringMessages, sentFields, sentFields, readFields_flatMap]

theorem inetConnection_of_full {strings : List (UInt32 × List UInt8)}
    (sendable : ∀ entry ∈ strings, entry.2 ≠ [] ∧ entry.2.length < 2 ^ 32) {dbg : Debugger}
    (full : (readFields ((sentFields (fuzzerMessages strings)).map List.length) dbg.input).1 =
      sentFields (fuzzerMessages strings)) :
    ∃ after, inetConnection dbg = some (fuzzerMessages strings, after) ∧
      after.input =
        (readFields ((sentFields (fuzzerMessages strings)).map List.length) dbg.input).2 := by
  obtain ⟨fullFirst, fullRest⟩ := full_append (List.flatMap_cons ..).symm full
  have version : FuzzerMessage.Sendable .version := nofun
  obtain ⟨middle, after, fetched, decoded, left⟩ := inetMsg_of_full version fullFirst
  rw [← left] at fullRest
  have enough : strings.length < after.input.flatten.length + 1 := by
    have bytes := length_le_sentFields (stringMessages strings)
    have stream := congrArg List.length
      (readFields_append_flatten ((sentFields (stringMessages strings)).map List.length)
        after.input)
    have rounds := length_stringMessages strings
    rw [sentFields] at bytes stream
    rw [fullRest, List.length_append] at stream
    omega
  obtain ⟨last, rest, leftRest⟩ := inetMsgs_of_full sendable enough fullRest
  refine ⟨last, ?_, ?_⟩
  · have isVersion : ¬ FuzzerMessage.version.opcode ≠ inetVersionAMsg := fun differs => differs rfl
    rw [inetConnection, fetched, Option.bind_eq_bind, Option.bind_some]
    dsimp only
    rw [if_neg isVersion, decoded, Option.bind_eq_bind, Option.bind_some]
    dsimp only
    rw [rest]
    rfl
  · rw [leftRest, left, fuzzerMessages, sentFields, sentFields, readFields_flatMap]

/-! The other direction: what the fuzzer reads. -/

theorem reads_of_dbgWaitForAcks {acks : Nat} {fuzzer after : Fuzzer}
    (answered : dbgWaitForAcks acks fuzzer = some after) :
    (readFields ((List.replicate acks [inetAckMsg]).map List.length) fuzzer.input).2 =
      after.input := by
  induction acks generalizing fuzzer with
  | zero =>
      cases answered
      rfl
  | succ acks induction =>
      obtain ⟨middle, first, rest⟩ := Option.bind_eq_some_iff.mp answered
      have same : middle = { fuzzer with input := (read 1 fuzzer.input).2 } := by
        unfold dbgWaitForAck dbgRead at first
        split at first
        · cases first
        · rename_i bytes later answered
          have left := congrArg Prod.snd answered
          split at first
          · cases first
          · exact (Option.some.inj first).symm.trans left.symm
      rw [same] at rest
      exact induction rest

theorem reads_of_dbgReadMsg {stale : UInt32} {fuzzer after : Fuzzer} {message : DebuggerMessage}
    (decoded : dbgReadMsg stale fuzzer = some (message, after)) :
    (readFields (message.fields.map List.length) fuzzer.input).2 = after.input := by
  unfold dbgReadMsg dbgRead at decoded
  split at decoded
  · cases decoded
  · rename_i opcode later answered
    have left := congrArg Prod.snd answered
    dsimp only at left
    subst left
    split at decoded
    · cases decoded
      rfl
    split at decoded
    · obtain ⟨fuzz, -, same⟩ := Option.map_eq_some_iff.mp decoded
      cases same
      rfl
    split at decoded
    · cases decoded
      rfl
    · cases decoded

/-- The fields of several messages. -/
def saidFields (messages : List DebuggerMessage) : List (List UInt8) :=
  messages.flatMap DebuggerMessage.fields

theorem readFields_saidFields (message : DebuggerMessage) (messages : List DebuggerMessage)
    (pieces : List (List UInt8)) :
    readFields ((saidFields (message :: messages)).map List.length) pieces =
      ((readFields (message.fields.map List.length) pieces).1 ++
        (readFields ((saidFields messages).map List.length)
          (readFields (message.fields.map List.length) pieces).2).1,
        (readFields ((saidFields messages).map List.length)
          (readFields (message.fields.map List.length) pieces).2).2) := by
  rw [saidFields, List.flatMap_cons, List.map_append, readFields_append]
  rfl

theorem reads_of_dbgReadMsgs {stale : Nat → UInt32} {packets : Nat} {fuzzer after : Fuzzer}
    {messages : List DebuggerMessage}
    (decoded : dbgReadMsgs stale packets fuzzer = some (messages, after)) :
    (readFields ((saidFields messages).map List.length) fuzzer.input).2 = after.input := by
  induction packets generalizing fuzzer messages with
  | zero =>
      cases decoded
      rfl
  | succ packets induction =>
      unfold dbgReadMsgs at decoded
      split at decoded
      · cases decoded
        rfl
      · obtain ⟨⟨message, middle⟩, first, decoded⟩ := Option.bind_eq_some_iff.mp decoded
        have reads := reads_of_dbgReadMsg first
        dsimp only at decoded
        split at decoded
        · cases decoded
          rw [readFields_saidFields]
          exact reads
        · obtain ⟨⟨others, last⟩, rest, same⟩ := Option.bind_eq_some_iff.mp decoded
          cases same
          rw [readFields_saidFields, reads]
          exact induction rest

/-- What comes back to the fuzzer: the acknowledgements, then the messages. -/
def repliedFields (acks : Nat) (messages : List DebuggerMessage) : List (List UInt8) :=
  List.replicate acks [inetAckMsg] ++ saidFields messages

theorem reads_of_dbgSession {stale : Nat → UInt32} {acks packets : Nat} {fuzzer after : Fuzzer}
    {messages : List DebuggerMessage}
    (decoded : dbgSession stale acks packets fuzzer = some (messages, after)) :
    (readFields ((repliedFields acks messages).map List.length) fuzzer.input).2 = after.input := by
  obtain ⟨middle, answered, rest⟩ := Option.bind_eq_some_iff.mp decoded
  rw [repliedFields, List.map_append, readFields_append, reads_of_dbgWaitForAcks answered]
  exact reads_of_dbgReadMsgs rest

theorem dbgRead_of_full {count : Nat} {fuzzer : Fuzzer} {bytes : List UInt8}
    (nonempty : bytes ≠ []) (full : (read count fuzzer.input).1 = bytes) :
    dbgRead count fuzzer = (some bytes, { fuzzer with input := (read count fuzzer.input).2 }) := by
  rw [dbgRead, full, if_neg nonempty]

theorem dbgWaitForAcks_of_full {acks : Nat} {fuzzer : Fuzzer}
    (full : (readFields ((List.replicate acks [inetAckMsg]).map List.length) fuzzer.input).1 =
      List.replicate acks [inetAckMsg]) :
    dbgWaitForAcks acks fuzzer = some { fuzzer with input :=
      (readFields ((List.replicate acks [inetAckMsg]).map List.length) fuzzer.input).2 } := by
  induction acks generalizing fuzzer with
  | zero => rfl
  | succ acks induction =>
      simp only [List.replicate_succ, List.map_cons, List.length_singleton, readFields,
        List.cons.injEq] at full ⊢
      obtain ⟨first, rest⟩ := full
      have ack : dbgWaitForAck fuzzer =
          some { fuzzer with input := (read 1 fuzzer.input).2 } := by
        rw [dbgWaitForAck, dbgRead_of_full (List.cons_ne_nil _ _) first]
        rfl
      rw [dbgWaitForAcks, ack]
      exact induction rest

theorem increaseWeight_of_mem {id : UInt32} {fuzz : List (UInt32 × Int)}
    (known : id ∈ fuzz.map Prod.fst) :
    ∃ after, increaseWeight id fuzz = some after ∧ after.map Prod.fst = fuzz.map Prod.fst := by
  induction fuzz with
  | nil => cases known
  | cons entry fuzz induction =>
      obtain ⟨other, weight⟩ := entry
      by_cases found : other = id
      · exact ⟨(other, weight + 1) :: fuzz, by rw [increaseWeight, if_pos found], rfl⟩
      · have later : id ∈ fuzz.map Prod.fst :=
          (List.mem_cons.mp known).resolve_left (fun same => found same.symm)
        obtain ⟨after, increased, same⟩ := induction later
        refine ⟨(other, weight) :: after, ?_, ?_⟩
        · rw [increaseWeight, if_neg found, increased]
          rfl
        · rw [List.map_cons, same]
          rfl

/-- The entries that a message names are there. -/
def DebuggerMessage.Known (message : DebuggerMessage) (fuzz : List (UInt32 × Int)) : Prop :=
  ∀ id, message = .weight id → id ∈ fuzz.map Prod.fst

theorem dbgReadMsg_of_full {stale : UInt32} {fuzzer : Fuzzer} {message : DebuggerMessage}
    (known : message.Known fuzzer.fuzz)
    (full : (readFields (message.fields.map List.length) fuzzer.input).1 = message.fields) :
    ∃ after, dbgReadMsg stale fuzzer = some (message, after) ∧
      after.input = (readFields (message.fields.map List.length) fuzzer.input).2 ∧
      after.fuzz.map Prod.fst = fuzzer.fuzz.map Prod.fst := by
  cases message with
  | sigsegv =>
      have opcode := @dbgRead_of_full 1 fuzzer _ (List.cons_ne_nil _ _) (List.cons.inj full).1
      refine ⟨{ fuzzer with input := (read 1 fuzzer.input).2 }, ?_, rfl, rfl⟩
      rw [dbgReadMsg, opcode]
      rfl
  | exit =>
      have opcode := @dbgRead_of_full 1 fuzzer _ (List.cons_ne_nil _ _) (List.cons.inj full).1
      refine ⟨{ fuzzer with input := (read 1 fuzzer.input).2 }, ?_, rfl, rfl⟩
      rw [dbgReadMsg, opcode]
      rfl
  | weight id =>
      simp only [DebuggerMessage.fields, List.map_cons, List.map_nil, List.length_singleton,
        length_bigEndian32, readFields, List.cons.injEq, and_true] at full ⊢
      obtain ⟨first, second⟩ := full
      have opcode := dbgRead_of_full (List.cons_ne_nil _ _) first
      have bytes := @dbgRead_of_full 4 { fuzzer with input := (read 1 fuzzer.input).2 }
        (bigEndian32 id.toNat) (List.cons_ne_nil _ _) second
      obtain ⟨fuzz, increased, same⟩ := increaseWeight_of_mem (known id rfl)
      have decoded : UInt32.ofNat (ofBigEndian (bigEndian32 id.toNat ++
          (bigEndian32 stale.toNat).drop (bigEndian32 id.toNat).length)) = id := by
        rw [length_bigEndian32, ← length_bigEndian32 stale.toNat, List.drop_length,
          List.append_nil, ofBigEndian_bigEndian32, Nat.mod_eq_of_lt id.toNat_lt]
        exact UInt32.ofNat_toNat
      have notSigsegv : ¬ ([inetWeightMsg].headD 0 = inetSigsegvMsg) := by decide
      have isWeight : [inetWeightMsg].headD 0 = inetWeightMsg := rfl
      refine ⟨{ input := (read 4 (read 1 fuzzer.input).2).2, fuzz }, ?_, rfl, same⟩
      rw [dbgReadMsg, opcode]
      dsimp only
      rw [if_neg notSigsegv, if_pos isWeight, bytes]
      dsimp only [Option.getD_some]
      rw [decoded, increased]
      rfl

theorem DebuggerMessage.fields_ne_nil (message : DebuggerMessage) :
    ∃ opcode fields, message.fields = [opcode] :: fields := by
  cases message <;> exact ⟨_, _, rfl⟩

/-- Something has been read, so there was something to read. -/
theorem input_ne_nil {pieces : List (List UInt8)} {message : DebuggerMessage}
    (full : (readFields (message.fields.map List.length) pieces).1 = message.fields) :
    pieces ≠ [] := by
  rintro rfl
  obtain ⟨opcode, fields, same⟩ := message.fields_ne_nil
  rw [same] at full
  exact List.cons_ne_nil _ _ (List.cons.inj full).1.symm

theorem dbgReadMsgs_of_full {stale : Nat → UInt32} {weights : List UInt32}
    {last : Option LastMessage} {packets : Nat} {fuzzer : Fuzzer}
    (enough : (debuggerMessages weights last).length ≤ packets)
    (known : ∀ id ∈ weights, id ∈ fuzzer.fuzz.map Prod.fst)
    (full : (readFields ((saidFields (debuggerMessages weights last)).map List.length)
      fuzzer.input).1 = saidFields (debuggerMessages weights last))
    (left : (readFields ((saidFields (debuggerMessages weights last)).map List.length)
      fuzzer.input).2 = []) :
    ∃ after, dbgReadMsgs stale packets fuzzer = some (debuggerMessages weights last, after) ∧
      after.input = [] := by
  induction weights generalizing packets fuzzer with
  | nil =>
      cases last with
      | none =>
          refine ⟨fuzzer, ?_, left⟩
          cases packets with
          | zero => rfl
          | succ packets => rw [dbgReadMsgs, if_pos (show fuzzer.input = [] from left)]; rfl
      | some last =>
          obtain ⟨packets, rfl⟩ := Nat.exists_eq_add_of_le' enough
          have only : debuggerMessages [] (some last) = [last.message] := rfl
          rw [only, saidFields, List.flatMap_singleton] at full left
          have known : last.message.Known fuzzer.fuzz := by
            intro id same
            cases last <;> cases same
          obtain ⟨after, decoded, rest, -⟩ :=
            @dbgReadMsg_of_full (stale packets) fuzzer _ known full
          refine ⟨after, ?_, by rw [rest, left]⟩
          have quits : last.message.quits = true := by cases last <;> rfl
          rw [only]
          change dbgReadMsgs stale (packets + 1) fuzzer = _
          rw [dbgReadMsgs, if_neg (input_ne_nil full), decoded, Option.bind_eq_bind,
            Option.bind_some]
          dsimp only
          rw [if_pos quits]
          rfl
  | cons id weights induction =>
      have shape : debuggerMessages (id :: weights) last =
          .weight id :: debuggerMessages weights last := rfl
      rw [shape] at full left enough ⊢
      obtain ⟨packets, rfl⟩ := Nat.exists_eq_add_one_of_ne_zero
        (Nat.ne_zero_of_lt (Nat.lt_of_succ_le enough))
      obtain ⟨fullFirst, fullRest⟩ := full_append (List.flatMap_cons ..).symm full
      obtain ⟨here, later⟩ := List.forall_mem_cons.mp known
      have knownFirst : DebuggerMessage.Known (.weight id) fuzzer.fuzz := by
        intro other same
        cases same
        exact here
      obtain ⟨middle, decoded, rest, same⟩ :=
        @dbgReadMsg_of_full (stale packets) fuzzer _ knownFirst fullFirst
      rw [readFields_saidFields, ← rest] at left
      rw [← rest] at fullRest
      rw [← same] at later
      obtain ⟨after, decodedRest, nothing⟩ :=
        induction (Nat.le_of_succ_le_succ enough) later fullRest left
      refine ⟨after, ?_, nothing⟩
      have goesOn : ¬ (DebuggerMessage.weight id).quits = true := Bool.false_ne_true
      rw [dbgReadMsgs, if_neg (input_ne_nil fullFirst), decoded, Option.bind_eq_bind,
        Option.bind_some]
      dsimp only
      rw [if_neg goesOn, decodedRest]
      rfl

theorem dbgSession_of_full {stale : Nat → UInt32} {weights : List UInt32}
    {last : Option LastMessage} {acks packets : Nat} {fuzzer : Fuzzer}
    (enough : (debuggerMessages weights last).length ≤ packets)
    (known : ∀ id ∈ weights, id ∈ fuzzer.fuzz.map Prod.fst)
    (full : (readFields ((repliedFields acks (debuggerMessages weights last)).map List.length)
      fuzzer.input).1 = repliedFields acks (debuggerMessages weights last))
    (left : (readFields ((repliedFields acks (debuggerMessages weights last)).map List.length)
      fuzzer.input).2 = []) :
    ∃ after, dbgSession stale acks packets fuzzer = some (debuggerMessages weights last, after) ∧
      after.input = [] := by
  obtain ⟨fullAcks, fullRest⟩ := full_append rfl full
  rw [repliedFields, List.map_append, readFields_append] at left
  have answered := dbgWaitForAcks_of_full fullAcks
  rw [dbgSession, answered]
  exact @dbgReadMsgs_of_full stale weights last packets { fuzzer with input :=
    (readFields ((List.replicate acks [inetAckMsg]).map List.length) fuzzer.input).2 }
    enough known fullRest left

/-! What is written is the fields of the messages. -/

theorem dbgSendMsg_of_small {message : FuzzerMessage}
    (small : ∀ id content, message = .string id content → content.length + 9 < 2 ^ 32) :
    dbgSendMsg message = message.fields.flatten := by
  have fits : message.fields.flatten.length < 2 ^ 32 := by
    cases message with
    | version => decide
    | start => decide
    | string id content =>
        have length := small id content rfl
        simp only [FuzzerMessage.fields, List.flatten_cons, List.flatten_nil, List.length_append,
          List.length_singleton, length_bigEndian32, List.length_nil]
        omega
  rw [dbgSendMsg, Nat.mod_eq_of_lt fits, List.take_length]

theorem forall_mem_stringMessages {strings : List (UInt32 × List UInt8)}
    {holds : List UInt8 → Prop} (all : ∀ entry ∈ strings, holds entry.2) :
    ∀ message ∈ stringMessages strings, ∀ id content, message = .string id content →
      holds content := by
  induction strings with
  | nil =>
      intro message member id content same
      cases List.mem_singleton.mp member
      cases same
  | cons entry strings induction =>
      obtain ⟨id, content⟩ := entry
      obtain ⟨first, later⟩ := List.forall_mem_cons.mp all
      refine List.forall_mem_cons.mpr ⟨?_, induction later⟩
      intro otherId otherContent same
      cases same
      exact first

theorem mem_fuzzerMessages {strings : List (UInt32 × List UInt8)} {entry : UInt32 × List UInt8}
    (member : entry ∈ strings) : .string entry.1 entry.2 ∈ fuzzerMessages strings := by
  refine List.mem_cons_of_mem _ ?_
  induction strings with
  | nil => cases member
  | cons other strings induction =>
      cases member with
      | head => exact List.mem_cons_self
      | tail _ later => exact List.mem_cons_of_mem _ (induction later)

theorem forall_mem_fuzzerMessages {strings : List (UInt32 × List UInt8)}
    {holds : List UInt8 → Prop} (all : ∀ entry ∈ strings, holds entry.2) :
    ∀ message ∈ fuzzerMessages strings, ∀ id content, message = .string id content →
      holds content :=
  List.forall_mem_cons.mpr ⟨nofun, forall_mem_stringMessages all⟩

theorem flatMap_dbgSendMsg {messages : List FuzzerMessage}
    (small : ∀ message ∈ messages, ∀ id content, message = .string id content →
      content.length + 9 < 2 ^ 32) :
    messages.flatMap dbgSendMsg = (sentFields messages).flatten := by
  induction messages with
  | nil => rfl
  | cons message messages induction =>
      obtain ⟨first, later⟩ := List.forall_mem_cons.mp small
      rw [List.flatMap_cons, dbgSendMsg_of_small first, induction later, sentFields, sentFields,
        List.flatMap_cons, List.flatten_append]

theorem sentFields_ne_nil {messages : List FuzzerMessage}
    (filled : ∀ message ∈ messages, message.Filled) :
    ∀ field ∈ sentFields messages, field ≠ [] := by
  intro field member
  obtain ⟨message, sent, inside⟩ := List.mem_flatMap.mp member
  have content := filled message sent
  cases message <;> simp only [FuzzerMessage.fields, List.mem_cons, List.not_mem_nil,
    or_false] at inside
  · rcases inside with rfl | rfl | rfl <;> exact List.cons_ne_nil _ _
  · rcases inside with rfl | rfl | rfl | rfl
    · exact List.cons_ne_nil _ _
    · exact List.cons_ne_nil _ _
    · exact List.cons_ne_nil _ _
    · exact content _ _ rfl
  · cases inside
    exact List.cons_ne_nil _ _

theorem repliedFields_ne_nil (acks : Nat) (messages : List DebuggerMessage) :
    ∀ field ∈ repliedFields acks messages, field ≠ [] := by
  intro field member
  rcases List.mem_append.mp member with ack | said
  · rw [List.eq_of_mem_replicate ack]
    exact List.cons_ne_nil _ _
  · obtain ⟨message, -, inside⟩ := List.mem_flatMap.mp said
    cases message <;> simp only [DebuggerMessage.fields, List.mem_cons, List.not_mem_nil,
      or_false] at inside
    · cases inside
      exact List.cons_ne_nil _ _
    · rcases inside with rfl | rfl <;> exact List.cons_ne_nil _ _
    · cases inside
      exact List.cons_ne_nil _ _

/-- What the debugger has written: the acknowledgements and its messages. -/
def replies (acks : Nat) (messages : List DebuggerMessage) : List UInt8 :=
  List.replicate acks inetAckMsg ++ messages.flatMap inetSendMsg

theorem flatten_repliedFields (acks : Nat) (messages : List DebuggerMessage) :
    (repliedFields acks messages).flatten = replies acks messages := by
  rw [repliedFields, replies, List.flatten_append]
  congr 1
  · induction acks with
    | zero => rfl
    | succ acks induction =>
        rw [List.replicate_succ, List.replicate_succ, List.flatten_cons, induction]
        rfl
  · induction messages with
    | nil => rfl
    | cons message messages induction =>
        rw [saidFields] at induction
        rw [saidFields, List.flatMap_cons, List.flatten_append, induction, List.flatMap_cons,
          inetSendMsg]

end Segvault.Autodafe
