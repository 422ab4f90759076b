import AmqpBroker.Verification.Sessions
import AmqpBroker.Verification.Stops

/-!
# The arguments of a method

What a complete METHOD frame leaves behind in `parsed`, and the queue name that each
argument parser finds there.
-/

namespace AmqpBroker

open Foundations Program

variable {w : World} {method : MethodHeader} {arguments name exchange key : List UInt8}
  {channel : UInt16}

/-- The arguments of a frame that was read are its bytes. -/
theorem afterFrame_argument (w : World) (channel : UInt16) (method : MethodHeader) {i : ℕ}
    (hi : i < arguments.length) :
    (w.afterFrame channel method arguments).cs.parsed (argumentsOffset + i) = arguments[i] := by
  have hbound : argumentsOffset + i < (encodeMethod method arguments).length := by
    rw [encodeMethod_length, argumentsOffset]
    omega
  have hparsed := parsedMethod_arguments (w.receive (encodeHeader MsgFormat.method channel
    (encodeMethod method arguments).length)) (argumentsOffset + i) (by simp [argumentsOffset]) hbound
  have hfour : (toBE 2 method.classId.toNat ++ toBE 2 method.methodId.toNat).length = 4 := by
    simp
  refine hparsed.trans ?_
  simp only [encodeMethod]
  rw [List.getElem_append_right (by rw [hfour, argumentsOffset]; omega)]
  simp only [hfour, argumentsOffset, Nat.add_sub_cancel_left]

/-- These are the bytes that the argument parsers get. -/
def HoldsArguments (w : World) (arguments : List UInt8) : Prop :=
  w.cs.parsed.slice argumentsOffset arguments.length = arguments

/-- The arguments of a frame that was read are all its bytes. -/
theorem afterFrame_holds (w : World) (channel : UInt16) (method : MethodHeader)
    (arguments : List UInt8) : HoldsArguments (w.afterFrame channel method arguments) arguments := by
  apply List.ext_getElem (Buffer.slice_length _ _ _)
  intro i _ hi
  rw [← afterFrame_argument w channel method hi, ← List.getD_eq_getElem _ 0, Buffer.getD_slice,
    if_pos hi]

/-- A copy by `strncpy` holds the same string. -/
theorem takeWhile_strncpyBytes (source : List UInt8) :
    (strncpyBytes source).takeWhile (· ≠ 0) = source.takeWhile (· ≠ 0) := by
  rw [strncpyBytes, List.takeWhile_append_of_pos]
  · rw [List.takeWhile_replicate]
    simp
  · intro byte hbyte
    exact List.mem_takeWhile_imp (p := fun x : UInt8 => decide (x ≠ 0)) hbyte

/-- A short string starts with its length. -/
theorem toNat_shortString_length (h : name.length < 256) :
    (UInt8.ofNat name.length).toNat = name.length := by
  rw [UInt8.toNat_ofNat']
  exact Nat.mod_eq_of_lt h

/-- A short string anywhere in the arguments: its length octet and then its bytes. -/
theorem HoldsArguments.shortString (hw : HoldsArguments w arguments) (before after : List UInt8)
    (h : name.length < 256) (harguments : arguments = before ++ shortString name ++ after) :
    (w.cs.parsed (argumentsOffset + before.length)).toNat = name.length ∧
      w.cs.parsed.slice (argumentsOffset + (before.length + 1)) name.length = name := by
  have hlength : arguments.length = before.length + (name.length + 1) + after.length := by
    rw [harguments]
    simp [AmqpBroker.shortString]
    omega
  have hin : before.length < arguments.length := by omega
  have hfirst : arguments[before.length] = UInt8.ofNat name.length := by
    simp [harguments, AmqpBroker.shortString]
  have hrest : (arguments.drop (before.length + 1)).take name.length = name := by
    rw [harguments, List.append_assoc, ← List.drop_drop, List.drop_left]
    simp [AmqpBroker.shortString]
  rw [Buffer.apply_of_slice hw hin, hfirst, toNat_shortString_length h,
    Buffer.slice_of_slice hw (by omega), hrest]
  exact ⟨rfl, rfl⟩

/-- `parse_queue_declare_args` finds the name behind the ticket. -/
theorem parseQueueDeclareArgs_returns (hw : HoldsArguments w arguments) (ticket : List UInt8)
    (hticket : ticket.length = 2) (hname : name.length < 256) (after : List UInt8)
    (harguments : arguments = ticket ++ shortString name ++ after) :
    ∃ w', parseQueueDeclareArgs w = .ok (name.takeWhile (· ≠ 0), w') := by
  obtain ⟨hsize, hbytes⟩ := hw.shortString ticket after hname harguments
  rw [hticket] at hsize hbytes
  rw [parseQueueDeclareArgs, field_bind_apply]
  simp only [hsize, hbytes]
  rw [bind_of_ok (storeQueueName_returns hname w)]
  exact ⟨_, rfl⟩

/-- `parse_basic_consume_args` finds the name behind the ticket. -/
theorem parseBasicConsumeArgs_returns (hw : HoldsArguments w arguments) (ticket : List UInt8)
    (hticket : ticket.length = 2) (hname : name.length < 256) (after : List UInt8)
    (harguments : arguments = ticket ++ shortString name ++ after) :
    ∃ w', parseBasicConsumeArgs w = .ok (name.takeWhile (· ≠ 0), w') := by
  obtain ⟨hsize, hbytes⟩ := hw.shortString ticket after hname harguments
  rw [hticket] at hsize hbytes
  have hstore := storeQueueName_returns (show (strncpyBytes name).length < 256 by
    rwa [strncpyBytes_length]) w
  rw [takeWhile_strncpyBytes] at hstore
  rw [parseBasicConsumeArgs, field_bind_apply]
  simp only [hsize, hbytes]
  rw [bind_of_ok hstore]
  exact ⟨_, rfl⟩

/-- `parse_basic_publish_args` finds the routing key, whatever stands around it. -/
theorem parseBasicPublishArgs_returns (hw : HoldsArguments w arguments) (ticket : List UInt8)
    (hticket : ticket.length = 2) (hexchange : exchange.length < 256) (hkey : key.length < 256)
    (after : List UInt8)
    (harguments : arguments = ticket ++ shortString exchange ++ shortString key ++ after) :
    ∃ w', parseBasicPublishArgs w = .ok (key.takeWhile (· ≠ 0), w') ∧ w'.socket = w.socket := by
  have hsplit : arguments = ticket ++ shortString exchange ++ (shortString key ++ after) := by
    rw [harguments, List.append_assoc]
  obtain ⟨hexchangeSize, -⟩ := hw.shortString ticket (shortString key ++ after) hexchange hsplit
  have hbefore : (ticket ++ shortString exchange).length = 3 + exchange.length := by
    simp [shortString, hticket]
    omega
  obtain ⟨hkeySize, hkeyBytes⟩ := hw.shortString (ticket ++ shortString exchange) after hkey
    harguments
  rw [hticket] at hexchangeSize
  rw [hbefore] at hkeySize hkeyBytes
  rw [← Nat.add_assoc] at hkeySize
  rw [← Nat.add_assoc, ← Nat.add_assoc] at hkeyBytes
  have hlen : (strncpyBytes key).length < 256 := by
    rw [strncpyBytes_length]
    exact hkey
  have hstore := storeQueueName_returns hlen w
  rw [takeWhile_strncpyBytes] at hstore
  apply Exists.intro
  apply And.intro
  · rw [parseBasicPublishArgs, field_bind_apply]
    simp only [hexchangeSize, hkeySize, hkeyBytes]
    rw [bind_of_ok hstore]
    rfl
  · rfl

end AmqpBroker
