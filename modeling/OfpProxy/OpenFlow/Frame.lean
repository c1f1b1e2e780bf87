import OfpProxy.OpenFlow.Types

/-!
This module contains the two frames the proxy rewrites, a flow-mod with command ADD and a
packet-out, together with what rewriting is meant to do to them.
-/

namespace OfpProxy

def ofptFeaturesReply : UInt8 := 6
def ofptPacketIn : UInt8 := 10
def ofptPacketOut : UInt8 := 13
def ofptFlowMod : UInt8 := 14
def ofptStatsRequest : UInt8 := 18
def ofptStatsReply : UInt8 := 19

def ofpfcAdd : UInt8 := 0

def ofpatSetField : UInt16 := 25

def OxmItem.isTagged (item : OxmItem) : Bool :=
  item.oxmClass = 0x8000 ∧ item.oxmFieldId = 0x36 ∧ item.value.head item.value_ne_nil = 0x7F

def Action.isSetField (a : Action) : Bool := a.type = ofpatSetField

def untaggedItems (items : List OxmItem) : List OxmItem := items.filter fun item => !item.isTagged

def taggedLength (items : List OxmItem) : Nat :=
  (OxmItem.codec.encodeAll (items.filter OxmItem.isTagged)).length

theorem length_untaggedItems (items : List OxmItem)
    : taggedLength items + (OxmItem.codec.encodeAll (untaggedItems items)).length
        =
      (OxmItem.codec.encodeAll items).length :=
  OxmItem.codec.length_encodeAll_filter OxmItem.isTagged items

def OfpMatch.untagged (mat : OfpMatch) : OfpMatch where
  type := mat.type
  items := untaggedItems mat.items
  length_lt := by
    have h1 := length_untaggedItems mat.items
    have h2 := mat.length_lt
    omega

theorem OfpMatch.length_untagged (mat : OfpMatch)
    : taggedLength mat.items + mat.untagged.length = mat.length := by
  have := length_untaggedItems mat.items
  simp only [OfpMatch.length, OfpMatch.untagged]
  omega

def stripActions (actions : List Action) : List Action := actions.filter fun a => !a.isSetField

def setFieldLength (actions : List Action) : Nat :=
  (Action.codec.encodeAll (actions.filter Action.isSetField)).length

theorem length_stripActions (actions : List Action)
    : setFieldLength actions + (Action.codec.encodeAll (stripActions actions)).length
        =
      (Action.codec.encodeAll actions).length :=
  Action.codec.length_encodeAll_filter Action.isSetField actions

theorem OfpMatch.untagged_eq_self {mat : OfpMatch} (h : ∀ item ∈ mat.items, item.isTagged = false)
    : mat.untagged = mat := by
  have hself : untaggedItems mat.items = mat.items := by
    unfold untaggedItems
    rw [List.filter_eq_self]
    intro item hitem
    simp [h item hitem]
  unfold OfpMatch.untagged
  simp only [hself]

theorem setFieldLength_eq_zero {actions : List Action} (h : ∀ a ∈ actions, a.isSetField = false)
    : setFieldLength actions = 0 := by
  have hnil : actions.filter Action.isSetField = [] := by
    rw [List.filter_eq_nil_iff]
    intro a ha
    simp [h a ha]
  unfold setFieldLength
  rw [hnil]
  rfl

theorem stripActions_eq_self {actions : List Action} (h : setFieldLength actions = 0)
    : stripActions actions = actions := by
  have hle := Action.codec.length_le_length_encodeAll (actions.filter Action.isSetField)
  have hnil : actions.filter Action.isSetField = [] := by
    rw [← List.length_eq_zero_iff]
    unfold setFieldLength at h
    omega
  rw [List.filter_eq_nil_iff] at hnil
  unfold stripActions
  rw [List.filter_eq_self]
  intro a ha
  simp [hnil a ha]

namespace Instruction

theorem strip_length_lt {actions : List Action}
    (h : 8 + (Action.codec.encodeAll actions).length < 65536)
    : 8 + (Action.codec.encodeAll (stripActions actions)).length < 65536 := by
  have := length_stripActions actions
  omega

def strip : Instruction → Instruction
  | applyActions pad actions length_lt =>
    applyActions pad (stripActions actions) (strip_length_lt length_lt)
  | other tlv type_ne => other tlv type_ne

def stripLength : Instruction → Nat
  | applyActions _ actions _ => setFieldLength actions
  | other _ _ => 0

theorem len_strip (i : Instruction) : i.stripLength + i.strip.len = i.len := by
  cases i with
  | applyActions pad actions hlen =>
    have := length_stripActions actions
    have := pad.property
    simp [stripLength, strip, len, toTlv, Tlv.len]
    omega
  | other tlv htype => simp [stripLength, strip, len]

theorem strip_eq_self {i : Instruction} (h : i.stripLength = 0) : i.strip = i := by
  cases i with
  | applyActions pad actions hlen =>
    unfold strip
    simp only [stripActions_eq_self h]
  | other tlv htype => rfl

theorem strip_eq_self_iff (i : Instruction) : i.strip = i ↔ i.stripLength = 0 := by
  constructor
  . intro h
    have hlen := i.len_strip
    rw [h] at hlen
    omega
  . apply strip_eq_self

theorem length_encodeAll_strip (is : List Instruction)
    : (is.map stripLength).sum + (codec.encodeAll (is.map strip)).length
        =
      (codec.encodeAll is).length := by
  induction is with
  | nil => rfl
  | cons i is ih =>
    have := i.len_strip
    simp only [List.map_cons, List.sum_cons, Codec.encodeAll_cons, List.length_append, length_encode]
    omega

end Instruction

/--
`OFPT_FLOW_MOD` with command ADD. `tail` runs from the idle timeout to the padding in front of
the match, all of which is passed on unread.
-/
structure FlowModAdd where
  version : UInt8
  xid : Block 4
  cookie : Block 8
  cookieMask : Block 8
  tableId : UInt8
  tail : Block 22
  mat : OfpMatch
  instructions : List Instruction
  length_lt : 48 + mat.paddedLength + (Instruction.codec.encodeAll instructions).length < 65536

namespace FlowModAdd

def length (f : FlowModAdd) : Nat :=
  48 + f.mat.paddedLength + (Instruction.codec.encodeAll f.instructions).length

def head (f : FlowModAdd) (len : Nat) : List UInt8 :=
  [f.version, ofptFlowMod] ++ be16 len ++ f.xid.val ++ f.cookie.val ++ f.cookieMask.val ++
    [f.tableId, ofpfcAdd] ++ f.tail.val

def encode (f : FlowModAdd) : List UInt8 :=
  f.head f.length ++ f.mat.encode ++ Instruction.codec.encodeAll f.instructions

@[simp]
theorem length_head (f : FlowModAdd) (len : Nat) : (f.head len).length = 48 := by
  simp [head, f.xid.property, f.cookie.property, f.cookieMask.property, f.tail.property]

@[simp]
theorem length_encode (f : FlowModAdd) : f.encode.length = f.length := by
  simp [encode, length]
  omega

end FlowModAdd

structure PacketOut where
  version : UInt8
  xid : Block 4
  bufferId : Block 4
  inPort : Block 4
  pad : Block 6
  actions : List Action
  data : List UInt8
  length_lt : 24 + (Action.codec.encodeAll actions).length + data.length < 65536

namespace PacketOut

def actionsLen (p : PacketOut) : Nat := (Action.codec.encodeAll p.actions).length

def length (p : PacketOut) : Nat := 24 + p.actionsLen + p.data.length

def head (p : PacketOut) : List UInt8 :=
  [p.version, ofptPacketOut] ++ be16 p.length ++ p.xid.val ++ p.bufferId.val ++ p.inPort.val ++
    be16 p.actionsLen ++ p.pad.val

def encode (p : PacketOut) : List UInt8 :=
  p.head ++ Action.codec.encodeAll p.actions ++ p.data

@[simp]
theorem length_head (p : PacketOut) : p.head.length = 24 := by
  simp [head, p.xid.property, p.bufferId.property, p.inPort.property, p.pad.property]

@[simp]
theorem length_encode (p : PacketOut) : p.encode.length = p.length := by
  simp [encode, length, actionsLen]
  omega

def strip (p : PacketOut) : PacketOut where
  version := p.version
  xid := p.xid
  bufferId := p.bufferId
  inPort := p.inPort
  pad := p.pad
  actions := stripActions p.actions
  data := p.data
  length_lt := by
    have h1 := length_stripActions p.actions
    have h2 := p.length_lt
    omega

end PacketOut

/--
`OFPT_PACKET_IN`, with two bytes of padding between the match and the data.
-/
structure PacketIn where
  version : UInt8
  xid : Block 4
  bufferId : Block 4
  totalLen : Block 2
  reason : UInt8
  tableId : UInt8
  cookie : Block 8
  mat : OfpMatch
  data : List UInt8
  length_lt : 26 + mat.paddedLength + data.length < 65536

namespace PacketIn

def length (p : PacketIn) : Nat := 26 + p.mat.paddedLength + p.data.length

def head (p : PacketIn) : List UInt8 :=
  [p.version, ofptPacketIn] ++ be16 p.length ++ p.xid.val ++ p.bufferId.val ++ p.totalLen.val ++
    [p.reason, p.tableId] ++ p.cookie.val

def encode (p : PacketIn) : List UInt8 := p.head ++ p.mat.encode ++ [0, 0] ++ p.data

@[simp]
theorem length_head (p : PacketIn) : p.head.length = 24 := by
  simp [head, p.xid.property, p.bufferId.property, p.totalLen.property, p.cookie.property]

@[simp]
theorem length_encode (p : PacketIn) : p.encode.length = p.length := by
  simp [encode, length]
  omega

end PacketIn

/--
A well-formed frame: one of the two that get rewritten, or any other one.
-/
inductive Frame where
  | flowModAdd (f : FlowModAdd)
  | packetOut (p : PacketOut)
  | other (version type : UInt8) (body : List UInt8) (length_lt : 4 + body.length < 65536)
      (type_ne : type ≠ ofptPacketOut)
      (command_ne : type = ofptFlowMod → ∃ command, body[21]? = some command ∧ command ≠ ofpfcAdd)

namespace Frame

def length : Frame → Nat
  | flowModAdd f => f.length
  | packetOut p => p.length
  | other _ _ body _ _ _ => 4 + body.length

def encode : Frame → List UInt8
  | flowModAdd f => f.encode
  | packetOut p => p.encode
  | other version type body _ _ _ => [version, type] ++ be16 (4 + body.length) ++ body

@[simp]
theorem length_encode (frame : Frame) : frame.encode.length = frame.length := by
  cases frame with
  | flowModAdd f => exact f.length_encode
  | packetOut p => exact p.length_encode
  | other version type body => simp [encode, length]; omega

def actions : Frame → List Action
  | flowModAdd f =>
    match f.instructions with
    | .applyActions _ actions _ :: _ => actions
    | _ => []
  | packetOut p => p.actions
  | other _ _ _ _ _ _ => []

def items : Frame → List OxmItem
  | flowModAdd f => f.mat.items
  | packetOut _ => []
  | other _ _ _ _ _ _ => []

def NothingToStrip (frame : Frame) : Prop :=
  (∀ item ∈ frame.items, item.isTagged = false) ∧ ∀ a ∈ frame.actions, a.isSetField = false

def FitsIn (size : Nat) : Frame → Prop
  | flowModAdd f =>
    f.mat.paddedLength + 10 ≤ size ∧ ∀ i ∈ f.instructions.head?, i.len + 10 ≤ size
  | packetOut p => p.actionsLen ≤ size
  | other _ _ _ _ _ _ => True

instance : (frame : Frame) → (size : Nat) → Decidable (frame.FitsIn size)
  | flowModAdd f, size =>
    inferInstanceAs (Decidable
      (f.mat.paddedLength + 10 ≤ size ∧ ∀ i ∈ f.instructions.head?, i.len + 10 ≤ size))
  | packetOut p, size => inferInstanceAs (Decidable (p.actionsLen ≤ size))
  | other _ _ _ _ _ _, _ => inferInstanceAs (Decidable True)

end Frame
end OfpProxy
